import Playbook.Proofs.Sources

/-!
# What is wrong with a source

A source compiles unless one of its lines is wrong, and then the error is the one about the first
such line. Whether a line is wrong depends on the headers above it and on nothing else: lines below
the first wrong one never show in the error.

Lines are told apart by their trimmed texts here (`heading?`, `isStatement`).
-/

namespace Playbook

theorem Reading.bind_error {x : Reading ε α} {f : α → Reading ε β} :
    (x >>= f).result = .error e ↔
      x.result = .error e ∨ ∃ a, x.result = .ok a ∧ (f a).result = .error e := by
  rw [Reading.result_bind]
  cases x.result <;> simp [Bind.bind, Except.bind]

namespace Compile

-- ---------------------------------------------------------------------------
-- Lines by their texts
-- ---------------------------------------------------------------------------

def texts (source : String) : List (List Char) := (Text.lines source.toList).map Text.trim

def heading? : List Char → Option String
  | ';' :: name => some (String.ofList (Text.trim name))
  | _ => none

def isStatement : List Char → Bool
  | [] => false
  | c :: _ => c != '#' && c != ';'

def headings (ts : List (List Char)) : List String := ts.filterMap heading?

def Unfit (name : String) : Prop := name = "" ∨ ∃ c ∈ name.toList, Text.isBlank c = true

instance (name : String) : Decidable (Unfit name) := inferInstanceAs (Decidable (_ ∨ _))

theorem headings_append (ts us : List (List Char)) :
    headings (ts ++ us) = headings ts ++ headings us := List.filterMap_append

theorem isStatement_of_heading? (h : heading? t = some name) : isStatement t = false := by
  unfold heading? at h
  split at h
  · rfl
  · cases h

theorem line_of_heading (h : heading? (Text.trim l) = some name) :
    line r site d l =
      if Unfit name then site.fail (.invalidSection (String.ofList (Text.trim l)))
      else if name ∈ d.names then site.fail (.duplicateSection name)
      else .ok (d.openSection name) := by
  obtain ⟨text, htext, rfl⟩ : ∃ text, Text.trim l = ';' :: text ∧
      String.ofList (Text.trim text) = name := by
    unfold heading? at h
    split at h
    · exact ⟨_, ‹_›, Option.some.inj h⟩
    · cases h
  have hread : Line.read l = .header (Text.trim text) (Text.trim l) := by
    simp [Line.read, htext]
  have hunfit : ((Text.trim text).isEmpty || (Text.trim text).any Text.isBlank) = true ↔
      Unfit (String.ofList (Text.trim text)) := by
    simp [Unfit]
  have hnames : (d.sections.any fun s => s.1 == String.ofList (Text.trim text)) = true ↔
      String.ofList (Text.trim text) ∈ d.names := by
    simp [Draft.names]
  simp only [line, hread, hunfit, hnames]

theorem Line.read_of_isStatement (h : isStatement (Text.trim l) = true) :
    Line.read l = .statement (Text.trim l) := by
  unfold Line.read
  split
  · simp [*, isStatement] at h
  · simp [*, isStatement] at h
  · simp [*, isStatement] at h
  · rfl

theorem line_of_openQuote (h : isStatement (Text.trim l) = true)
    (hscan : Token.scan (Text.trim l) = none) : line r site d l = site.fail .unterminatedQuote := by
  simp only [line, Line.read_of_isStatement h, hscan]

theorem line_of_words (h : isStatement (Text.trim l) = true)
    (hscan : Token.scan (Text.trim l) = some words) :
    line r site d l = (do
      let a ← tokens r site words
      return d.push a) := by
  simp only [line, Line.read_of_isStatement h, hscan]

theorem line_of_neither (hh : heading? (Text.trim l) = none)
    (hs : isStatement (Text.trim l) = false) : line r site d l = .ok d := by
  have hread : Line.read l = .skip := by
    unfold Line.read
    split
    · rfl
    · rfl
    · simp [*, heading?] at hh
    · rename_i hblank hcomment hheader
      exfalso
      cases ht : Text.trim l with
      | nil => exact hblank ht
      | cons c cs =>
        have hc : c ≠ '#' := by rintro rfl; exact hcomment _ ht
        have hc' : c ≠ ';' := by rintro rfl; exact hheader _ ht
        simp [ht, isStatement, hc, hc'] at hs
  simp only [line, hread]

inductive Adds (r : Registry) (site : Site) (t : List Char) (d : Draft) : Draft → Prop
  | nothing : heading? t = none → isStatement t = false → Adds r site t d d
  | header : heading? t = some name → name ∉ d.names → Adds r site t d (d.openSection name)
  | statement : heading? t = none → isStatement t = true → Token.scan t = some words →
      (tokens r site words).result = .ok a → Adds r site t d (d.push a)

theorem heading?_of_isStatement (h : isStatement t = true) : heading? t = none := by
  cases hh : heading? t with
  | none => rfl
  | some name => simp [isStatement_of_heading? hh] at h

theorem line_adds (h : (line r site d l).result = .ok d') : Adds r site (Text.trim l) d d' := by
  cases hh : heading? (Text.trim l) with
  | some name =>
    rw [line_of_heading hh] at h
    split at h
    · simp at h
    · split at h
      · simp at h
      · cases h
        exact .header hh ‹_›
  | none =>
    cases hs : isStatement (Text.trim l) with
    | false =>
      rw [line_of_neither hh hs] at h
      cases h
      exact .nothing hh hs
    | true =>
      cases hscan : Token.scan (Text.trim l) with
      | none => simp [line_of_openQuote hs hscan] at h
      | some words =>
        rw [line_of_words hs hscan, Reading.bind_ok] at h
        obtain ⟨a, ha, h⟩ := h
        cases h
        exact .statement hh hs hscan ha

theorem Adds.names (h : Adds r site t d d') : d'.names = d.names ++ (heading? t).toList := by
  cases h with
  | nothing hh => simp [hh]
  | header hh => simp [hh, Draft.names_openSection]
  | statement hh => simp [hh, Draft.names_push]

-- ---------------------------------------------------------------------------
-- Lines that are wrong
-- ---------------------------------------------------------------------------

/-- What can be wrong with a line below the headers `above`, and the error that says so. -/
inductive Complaint (r : Registry) (site : Site) (above : List String) (t : List Char) :
    CompileError → Prop
  | unfit : heading? t = some name → Unfit name →
      Complaint r site above t ⟨site.unit, site.line, .invalidSection (String.ofList t)⟩
  | repeated : heading? t = some name → ¬ Unfit name → name ∈ above →
      Complaint r site above t ⟨site.unit, site.line, .duplicateSection name⟩
  | openQuote : isStatement t = true → Token.scan t = none →
      Complaint r site above t ⟨site.unit, site.line, .unterminatedQuote⟩
  | words : isStatement t = true → Token.scan t = some words →
      (tokens r site words).result = .error e → Complaint r site above t e

theorem Site.fail_error {site : Site} :
    (site.fail fault : Reading CompileError α).result = .error e ↔
      e = ⟨site.unit, site.line, fault⟩ := by
  simp [Site.fail, eq_comm]

theorem line_error_iff :
    (line r site d l).result = .error e ↔ Complaint r site d.names (Text.trim l) e := by
  constructor
  · intro h
    cases hh : heading? (Text.trim l) with
    | some name =>
      rw [line_of_heading hh] at h
      split at h
      · rw [Site.fail_error] at h
        exact h ▸ .unfit hh ‹_›
      · split at h
        · rw [Site.fail_error] at h
          exact h ▸ .repeated hh ‹_› ‹_›
        · cases h
    | none =>
      cases hs : isStatement (Text.trim l) with
      | false =>
        rw [line_of_neither hh hs] at h
        cases h
      | true =>
        cases hscan : Token.scan (Text.trim l) with
        | none =>
          rw [line_of_openQuote hs hscan, Site.fail_error] at h
          exact h ▸ .openQuote hs hscan
        | some words =>
          rw [line_of_words hs hscan, Reading.bind_error] at h
          obtain h | ⟨a, -, h⟩ := h
          · exact .words hs hscan h
          · cases h
  · rintro (⟨hh, hname⟩ | ⟨hh, hname, hmem⟩ | ⟨hs, hscan⟩ | ⟨hs, hscan, hwords⟩)
    · rw [line_of_heading hh, if_pos hname, Site.fail_error]
    · rw [line_of_heading hh, if_neg hname, if_pos hmem, Site.fail_error]
    · rw [line_of_openQuote hs hscan, Site.fail_error]
    · rw [line_of_words hs hscan, Reading.bind_error]
      exact .inl hwords

-- ---------------------------------------------------------------------------
-- Errors know their place
-- ---------------------------------------------------------------------------

def Sited (site : Site) (x : Reading CompileError α) : Prop :=
  ∀ e, x.result = .error e → e.unit = site.unit ∧ e.line = site.line

namespace Sited

variable {site : Site}

theorem ok (a : α) : Sited site (.ok a) := by
  rintro e ⟨⟩

theorem fail (fault : CompileFault) : Sited site (site.fail fault : Reading CompileError α) := by
  rintro e h
  rw [Site.fail_error] at h
  exact h ▸ ⟨rfl, rfl⟩

theorem bind {x : Reading CompileError α} {f : α → Reading CompileError β} (hx : Sited site x)
    (hf : ∀ a, Sited site (f a)) : Sited site (x >>= f) := by
  rintro e h
  rcases Reading.bind_error.mp h with h | ⟨a, -, h⟩
  · exact hx e h
  · exact hf a e h

theorem mapError {x : Reading ε α} (fault : ε → CompileFault) :
    Sited site (x.mapError fun e => ⟨site.unit, site.line, fault e⟩) := by
  rintro e h
  rw [Reading.result_mapError] at h
  cases hx : x.result with
  | ok a => simp [hx, Except.mapError] at h
  | error e' =>
    simp only [hx, Except.mapError, Except.error.injEq] at h
    exact h ▸ ⟨rfl, rfl⟩

end Sited

variable {site : Site} {action : String}

theorem bindToken_sited : Sited site (bindToken site action spec t) := by
  unfold bindToken
  split
  · exact .fail _
  · exact .mapError fun reason => .invalidLiteral action spec.index spec.name t.text reason

theorem bindParams_sited : Sited site (bindParams site action args specs) := by
  induction specs with
  | nil => exact .ok _
  | cons spec specs ih =>
    have hspec : Sited site (bindParam site action args spec) := by
      unfold bindParam
      split
      · exact bindToken_sited
      · exact bindToken_sited
      · exact .fail _
    exact .bind hspec fun _ => .bind ih fun _ => .ok _

theorem tokens_sited : Sited site (tokens r site ts) := by
  unfold tokens
  split
  · exact .fail _
  · split
    · exact .fail _
    · split
      · exact .fail _
      · refine Sited.bind bindParams_sited fun slots => ?_
        dsimp only
        split
        · exact .fail _
        · exact .ok _

theorem Complaint.sited (h : Complaint r site above t e) :
    e.unit = site.unit ∧ e.line = site.line := by
  cases h with
  | unfit => exact ⟨rfl, rfl⟩
  | repeated => exact ⟨rfl, rfl⟩
  | openQuote => exact ⟨rfl, rfl⟩
  | words _ _ h => exact tokens_sited e h

-- ---------------------------------------------------------------------------
-- The first line that is wrong
-- ---------------------------------------------------------------------------

def FaultAt (r : Registry) (unit : String) (ts : List (List Char)) (k : Nat) (e : CompileError) :
    Prop :=
  ∃ t, ts[k]? = some t ∧ Complaint r ⟨unit, k + 1⟩ (headings (ts.take k)) t e

/-- Line `k` is the first that is wrong, counted from line `start` on. -/
structure FirstFault (r : Registry) (unit : String) (ts : List (List Char)) (start k : Nat)
    (e : CompileError) : Prop where
  within : start ≤ k
  fault : FaultAt r unit ts k e
  first : ∀ j, start ≤ j → j < k → ∀ e', ¬ FaultAt r unit ts j e'

/-- Whether a line is wrong depends on it and the lines above. -/
theorem FaultAt.congr {us : List (List Char)} (h : FaultAt r unit ts k e)
    (hus : us.take (k + 1) = ts.take (k + 1)) : FaultAt r unit us k e := by
  obtain ⟨t, ht, hc⟩ := h
  refine ⟨t, ?_, ?_⟩
  · rw [← List.getElem?_take_of_lt (Nat.lt_succ_self k), hus,
      List.getElem?_take_of_lt (Nat.lt_succ_self k), ht]
  · have htake : us.take k = ts.take k := by
      simpa [List.take_take] using congrArg (List.take k) hus
    rwa [htake]

theorem FirstFault.congr {us : List (List Char)} (h : FirstFault r unit ts start k e)
    (hus : us.take (k + 1) = ts.take (k + 1)) : FirstFault r unit us start k e := by
  refine ⟨h.within, h.fault.congr hus, ?_⟩
  rintro j hj hk e' hfault
  have htake : ts.take (j + 1) = us.take (j + 1) := by
    simpa [List.take_take, Nat.min_eq_left (show j + 1 ≤ k + 1 by omega)] using
      congrArg (List.take (j + 1)) hus.symm
  exact h.first j hj hk e' (hfault.congr htake)

-- By induction on the lines still to be compiled; `above` are the texts of those
-- that were, and the draft has their headers.
theorem linesFrom_error_iff (hd : d.names = headings above) :
    (linesFrom r unit (above.length + 1) d ls).result = .error e ↔
      ∃ k, FirstFault r unit (above ++ ls.map Text.trim) above.length k e := by
  induction ls generalizing above d with
  | nil =>
    constructor
    · rintro ⟨⟩
    · rintro ⟨k, hk, ⟨t, ht, -⟩, -⟩
      simp [List.getElem?_eq_none hk] at ht
  | cons l ls ih =>
    have hhere (e) : FaultAt r unit (above ++ Text.trim l :: ls.map Text.trim) above.length e ↔
        Complaint r ⟨unit, above.length + 1⟩ (headings above) (Text.trim l) e := by
      simp [FaultAt]
    rw [linesFrom, Reading.bind_error, List.map_cons]
    cases hline : (line r ⟨unit, above.length + 1⟩ d l).result with
    | error e' =>
      have hcomplaint := hd ▸ line_error_iff.mp hline
      constructor
      · rintro (h | ⟨d', h, -⟩)
        · cases h
          exact ⟨_, Nat.le_refl _, (hhere _).mpr hcomplaint, fun j hj hlt => absurd hlt (by omega)⟩
        · cases h
      · rintro ⟨k, hk, hfault, hfirst⟩
        obtain rfl | hlt := Nat.eq_or_lt_of_le hk
        · left
          rw [← hline, line_error_iff, hd]
          exact (hhere _).mp hfault
        · exact absurd ((hhere _).mpr hcomplaint) (hfirst _ (Nat.le_refl _) hlt e')
    | ok d' =>
      have hnames : d'.names = headings (above ++ [Text.trim l]) := by
        rw [(line_adds hline).names, hd, headings_append]
        cases hh : heading? (Text.trim l) <;> simp [headings, hh]
      have hright : ∀ e', ¬ FaultAt r unit (above ++ Text.trim l :: ls.map Text.trim)
          above.length e' := by
        intro e' hfault
        rw [hhere, ← hd, ← line_error_iff, hline] at hfault
        cases hfault
      have hrest := ih hnames
      rw [List.length_append, List.length_singleton, List.append_assoc,
        List.singleton_append] at hrest
      simp only [reduceCtorEq, Except.ok.injEq, exists_eq_left', false_or, hrest]
      constructor
      · rintro ⟨k, hk, hfault, hfirst⟩
        refine ⟨k, by omega, hfault, fun j hj hlt => ?_⟩
        obtain rfl | hj := Nat.eq_or_lt_of_le hj
        · exact hright
        · exact hfirst j hj hlt
      · rintro ⟨k, hk, hfault, hfirst⟩
        obtain rfl | hlt := Nat.eq_or_lt_of_le hk
        · exact absurd hfault (hright e)
        · exact ⟨k, hlt, hfault, fun j hj => hfirst j (by omega)⟩

end Compile

open Compile

theorem compile_error_iff : (compile r unit source).result = .error e ↔
    ∃ k, FirstFault r unit (texts source) 0 k e := by
  have hempty : Draft.empty.names = headings [] := rfl
  have hlines : (linesFrom r unit 1 .empty (Text.lines source.toList)).result = .error e ↔
      ∃ k, FirstFault r unit (texts source) 0 k e := linesFrom_error_iff hempty
  rw [compile, Reading.bind_error]
  constructor
  · rintro (h | ⟨d, -, h⟩)
    · exact hlines.mp h
    · cases h
  · intro h
    exact .inl (hlines.mpr h)

theorem Compile.FaultAt.first (h : FaultAt r unit ts k e) :
    ∃ j e', FirstFault r unit ts 0 j e' := by
  induction k using Nat.strongRecOn generalizing e with
  | ind k ih =>
    by_cases hearlier : ∃ j < k, ∃ e', FaultAt r unit ts j e'
    · obtain ⟨j, hj, e', hfault⟩ := hearlier
      exact ih j hj hfault
    · push Not at hearlier
      exact ⟨k, e, Nat.zero_le k, h, fun j _ hj => hearlier j hj⟩

/-- A source fails to compile exactly if one of its lines is wrong. The error is the one about the
first such line and names the unit and the line, and every source with the same lines up to that
one fails with it. -/
theorem compile_fails_at_first_fault (r : Registry) (unit source : String) :
    ((∃ e, (compile r unit source).result = .error e) ↔
      ∃ k e, FaultAt r unit (texts source) k e) ∧
    ∀ e, (compile r unit source).result = .error e →
      ∃ k, (∀ e', FaultAt r unit (texts source) k e' ↔ e' = e) ∧
        (∀ j < k, ∀ e', ¬ FaultAt r unit (texts source) j e') ∧
        e.unit = unit ∧ e.line = k + 1 ∧
        ∀ other, (texts other).take (k + 1) = (texts source).take (k + 1) →
          (compile r unit other).result = .error e := by
  refine ⟨⟨?_, ?_⟩, ?_⟩
  · rintro ⟨e, he⟩
    obtain ⟨k, hk⟩ := compile_error_iff.mp he
    exact ⟨k, e, hk.fault⟩
  · rintro ⟨k, e, hfault⟩
    obtain ⟨j, e', hfirst⟩ := hfault.first
    exact ⟨e', compile_error_iff.mpr ⟨j, hfirst⟩⟩
  · intro e he
    obtain ⟨k, hk⟩ := compile_error_iff.mp he
    have honly : ∀ e', FaultAt r unit (texts source) k e' → e' = e := by
      intro e' hfault
      have he' := compile_error_iff.mpr ⟨k, hk.within, hfault, hk.first⟩
      exact Except.error.inj (he'.symm.trans he)
    have hsite : e.unit = unit ∧ e.line = k + 1 := by
      obtain ⟨t, -, hc⟩ := hk.fault
      exact hc.sited
    refine ⟨k, ?_, ?_, hsite.1, hsite.2, ?_⟩
    · intro e'
      exact ⟨honly e', fun h => h ▸ hk.fault⟩
    · intro j hj
      exact hk.first j (Nat.zero_le j) hj
    · intro other hother
      exact compile_error_iff.mpr ⟨k, hk.congr hother⟩

-- The name is taken on line 1, so what is wrong on line 5 never shows.
theorem compile_fails_at_repeated_header :
    (compile .builtins "demo" ";a\nLog x\n; b\n;  a\nNope").result =
      .error ⟨"demo", 4, .duplicateSection "a"⟩ ∧
    ∀ other, (texts other).take 4 = (texts ";a\nLog x\n; b\n;  a\nNope").take 4 →
      (compile .builtins "demo" other).result = .error ⟨"demo", 4, .duplicateSection "a"⟩ := by
  have herror : (compile .builtins "demo" ";a\nLog x\n; b\n;  a\nNope").result =
      .error ⟨"demo", 4, .duplicateSection "a"⟩ := by
    have hmap : (compile .builtins "demo" ";a\nLog x\n; b\n;  a\nNope").result.map
        (fun u => u.scripts.length) = .error ⟨"demo", 4, .duplicateSection "a"⟩ := by
      decide +kernel
    cases h : (compile .builtins "demo" ";a\nLog x\n; b\n;  a\nNope").result with
    | ok u => simp [h, Except.map] at hmap
    | error e => simpa [h, Except.map] using hmap
  refine ⟨herror, ?_⟩
  obtain ⟨k, -, -, -, hline, hother⟩ :=
    (compile_fails_at_first_fault .builtins "demo" ";a\nLog x\n; b\n;  a\nNope").2 _ herror
  obtain rfl : k = 3 := by simpa using hline.symm
  exact hother

end Playbook
