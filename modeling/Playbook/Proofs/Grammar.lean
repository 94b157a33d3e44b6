import Playbook.Proofs.Words

/-!
# The grammar of a line

A line is blanks and words (`Reads`). A word in quotes ends at the first quote that is not escaped,
and another word may follow at once; any other word ends in front of a blank or with the line.

`ofLine_grammar`: the words of a line are those that the grammar derives, and there is no other way
to derive words from it. Nothing is derived exactly if some word opens a quote behind which every
quote is escaped, that is, has an odd number of backslashes in front of it.
-/

namespace Playbook.Token

/-- What stands between the quotes of a word, and the text that it gives. -/
inductive Spells : List Char → List Char → Prop
  | nil : Spells [] []
  | plain : c ≠ '"' → c ≠ '\\' → Spells body w → Spells (c :: body) (c :: w)
  | escaped : c = '"' ∨ c = '\\' → Spells body w → Spells ('\\' :: c :: body) (c :: w)
  | kept : c ≠ '"' → c ≠ '\\' → Spells body w → Spells ('\\' :: c :: body) ('\\' :: c :: w)

/-- The line starts with the words, and `rest` is left where the next word may start. -/
inductive Reads : List Char → List Token → List Char → Prop
  | start : Reads cs [] cs
  | blank : Text.isBlank c = true → Reads cs ts rest → Reads (c :: cs) ts rest
  | quoted : Spells body w → Reads tail ts rest →
      Reads ('"' :: (body ++ '"' :: tail)) (literal (String.ofList w) :: ts) rest
  | bare : IsBare w → Apart tail → Reads tail ts rest →
      Reads (w ++ tail) (bare (String.ofList w) :: ts) rest

def Derives (cs : List Char) (ts : List Token) : Prop := Reads cs ts []

def slashes (cs : List Char) : Nat := (cs.reverse.takeWhile (· = '\\')).length

def Escapes (cs : List Char) : Prop := slashes cs % 2 = 1

instance (cs : List Char) : Decidable (Escapes cs) := inferInstanceAs (Decidable (_ = _))

/-- Some word of the line opens a quote, and every quote behind it is escaped. -/
def LeftOpen (cs : List Char) : Prop :=
  ∃ ts rest, Reads cs ts ('"' :: rest) ∧
    ∀ before after, rest = before ++ '"' :: after → Escapes before

-- ---------------------------------------------------------------------------
-- Behind a quote
-- ---------------------------------------------------------------------------

/-- Induction along the text behind a quote: what follows a backslash goes with it, so that a
quote that is met is not escaped. -/
theorem quote_induction {P : List Char → Prop} (nil : P []) (quote : ∀ cs, P ('"' :: cs))
    (slash : P ['\\']) (pair : ∀ c cs, P cs → P ('\\' :: c :: cs))
    (plain : ∀ c cs, c ≠ '"' → c ≠ '\\' → P cs → P (c :: cs)) (cs : List Char) : P cs := by
  induction hn : cs.length using Nat.strongRecOn generalizing cs with
  | ind n ih =>
    subst hn
    cases cs with
    | nil => exact nil
    | cons c cs =>
      by_cases hq : c = '"'
      · exact hq ▸ quote cs
      by_cases hb : c = '\\'
      · subst hb
        cases cs with
        | nil => exact slash
        | cons d cs =>
          have hlt : cs.length < ('\\' :: d :: cs).length := by simp only [List.length_cons]; omega
          exact pair d cs (ih cs.length hlt cs rfl)
      · exact plain c cs hq hb (ih cs.length (by simp) cs rfl)

theorem scanQuoted_spells (h : Spells body w) (tail : List Char) :
    scanQuoted (body ++ '"' :: tail) = (scan tail).map fun ts => (w, ts) := by
  induction h with
  | nil => simp [scanQuoted]
  | plain hq hb _ ih =>
    rw [List.cons_append, scanQuoted_plain hq hb, ih, Option.map_map]
    rfl
  | escaped h _ ih =>
    rw [List.cons_append, List.cons_append, scanQuoted_escaped h, ih, Option.map_map]
    rfl
  | kept hq hb _ ih =>
    rw [List.cons_append, List.cons_append, scanQuoted_kept hq hb, ih, Option.map_map]
    rfl

def Closed (cs : List Char) : Prop := ∃ body w tail, Spells body w ∧ cs = body ++ '"' :: tail

namespace Closed

theorem quote (cs : List Char) : Closed ('"' :: cs) := ⟨[], [], cs, .nil, rfl⟩

theorem plain (hq : c ≠ '"') (hb : c ≠ '\\') (h : Closed cs) : Closed (c :: cs) := by
  obtain ⟨body, w, tail, hs, rfl⟩ := h
  exact ⟨c :: body, c :: w, tail, .plain hq hb hs, rfl⟩

theorem pair (c : Char) (h : Closed cs) : Closed ('\\' :: c :: cs) := by
  obtain ⟨body, w, tail, hs, rfl⟩ := h
  by_cases he : c = '"' ∨ c = '\\'
  · exact ⟨'\\' :: c :: body, c :: w, tail, .escaped he hs, rfl⟩
  · rw [not_or] at he
    exact ⟨'\\' :: c :: body, '\\' :: c :: w, tail, .kept he.1 he.2 hs, rfl⟩

end Closed

theorem scanQuoted_of_not_closed (h : ¬ Closed cs) : scanQuoted cs = none := by
  induction cs using quote_induction with
  | nil => simp [scanQuoted]
  | quote cs => exact absurd (.quote cs) h
  | slash => rw [scanQuoted_other (by decide) (by simp) (by simp)]; simp [scanQuoted]
  | pair c cs ih =>
    have ih := ih fun hc => h (hc.pair c)
    by_cases he : c = '"' ∨ c = '\\'
    · rw [scanQuoted_escaped he, ih]; rfl
    · rw [not_or] at he
      rw [scanQuoted_kept he.1 he.2, ih]; rfl
  | plain c cs hq hb ih =>
    have ih := ih fun hc => h (hc.plain hq hb)
    rw [scanQuoted_plain hq hb, ih]; rfl

-- ---------------------------------------------------------------------------
-- Escaped quotes
-- ---------------------------------------------------------------------------

theorem slashes_append (cs ds : List Char) :
    slashes (cs ++ ds) = if slashes ds = ds.length then slashes cs + ds.length else slashes ds := by
  by_cases h : slashes ds = ds.length
  · rw [if_pos h]
    unfold slashes at h ⊢
    rw [List.reverse_append, List.takeWhile_append, List.length_reverse, if_pos h,
      List.length_append, List.length_reverse, Nat.add_comm]
  · rw [if_neg h]
    unfold slashes at h ⊢
    rw [List.reverse_append, List.takeWhile_append, List.length_reverse, if_neg h]

theorem escapes_plain (hb : c ≠ '\\') (cs : List Char) : Escapes (c :: cs) ↔ Escapes cs := by
  have hc : slashes [c] = 0 := by simp [slashes, hb]
  have happend := slashes_append [c] cs
  rw [List.singleton_append, hc] at happend
  unfold Escapes
  split at happend <;> omega

theorem escapes_pair (c : Char) (cs : List Char) : Escapes ('\\' :: c :: cs) ↔ Escapes cs := by
  have happend := slashes_append ['\\', c] cs
  have hpair : slashes ['\\', c] % 2 = 0 := by
    by_cases hb : c = '\\' <;> simp [slashes, hb]
  simp only [List.cons_append, List.nil_append] at happend
  unfold Escapes
  split at happend <;> omega

theorem Spells.not_escapes (h : Spells body w) : ¬ Escapes body := by
  induction h with
  | nil => simp [Escapes, slashes]
  | plain _ hb _ ih => rwa [escapes_plain hb]
  | escaped _ _ ih => rwa [escapes_pair]
  | kept _ _ _ ih => rwa [escapes_pair]

/-- The quote that closes a word is one that is not escaped. -/
theorem closed_iff :
    Closed cs ↔ ∃ before after, cs = before ++ '"' :: after ∧ ¬ Escapes before := by
  constructor
  · rintro ⟨body, w, tail, hs, rfl⟩
    exact ⟨body, tail, rfl, hs.not_escapes⟩
  · rintro ⟨before, after, hcs, hfree⟩
    induction cs using quote_induction generalizing before with
    | nil => simp at hcs
    | quote cs => exact .quote cs
    | slash =>
      cases before with
      | nil => simp at hcs
      | cons d before => simp at hcs
    | pair c cs ih =>
      cases before with
      | nil => simp at hcs
      | cons d before =>
        cases before with
        | nil =>
          obtain rfl : '\\' = d := by simpa using congrArg List.head? hcs
          exact absurd rfl hfree
        | cons e before =>
          simp only [List.cons_append, List.cons.injEq] at hcs
          obtain ⟨rfl, rfl, hcs⟩ := hcs
          exact (ih before hcs (mt (escapes_pair c before).mpr hfree)).pair c
    | plain c cs hq hb ih =>
      cases before with
      | nil => exact absurd (by simpa using congrArg List.head? hcs) hq
      | cons d before =>
        simp only [List.cons_append, List.cons.injEq] at hcs
        obtain ⟨rfl, hcs⟩ := hcs
        exact (ih before hcs (mt (escapes_plain hb before).mpr hfree)).plain hq hb

theorem not_closed_iff :
    ¬ Closed cs ↔ ∀ before after, cs = before ++ '"' :: after → Escapes before := by
  rw [closed_iff]
  simp only [not_exists, not_and, Decidable.not_not]

-- ---------------------------------------------------------------------------
-- The words of a line
-- ---------------------------------------------------------------------------

theorem Reads.scan (h : Reads cs ts rest) : scan cs = (scan rest).map (ts ++ ·) := by
  induction h with
  | start => simp
  | blank hc _ ih => rw [scan_blank hc, ih]
  | quoted hs _ ih =>
    have hq : Text.isBlank '"' = false := rfl
    simp only [Token.scan, hq, Bool.false_eq_true, ↓reduceIte, scanQuoted_spells hs, ih,
      Option.map_map]
    rfl
  | bare hw ht _ ih =>
    rw [scan_bare hw ht, ih, Option.map_map]
    rfl

theorem exists_bare (hblank : ¬ Text.isBlank c = true) (hq : c ≠ '"') (cs : List Char) :
    ∃ w tail, c :: cs = w ++ tail ∧ IsBare w ∧ Apart tail := by
  refine ⟨(c :: cs).takeWhile (!Text.isBlank ·), (c :: cs).dropWhile (!Text.isBlank ·),
    List.takeWhile_append_dropWhile.symm, ⟨?_, ?_, ?_⟩, ?_⟩
  · simp [hblank]
  · simp [hblank, hq]
  · intro d hd
    simpa using List.all_eq_true.mp List.all_takeWhile d hd
  · intro d hd
    have hstop := List.head?_dropWhile_not (!Text.isBlank ·) (c :: cs)
    rw [hd] at hstop
    simpa using hstop

/-- Words can be read up to the end of the line, or up to a quote that is left open. -/
theorem derives_or_leftOpen (cs : List Char) : (∃ ts, Derives cs ts) ∨ LeftOpen cs := by
  induction hn : cs.length using Nat.strongRecOn generalizing cs with
  | ind n ih =>
    subst hn
    -- whatever comes first, the rest of the line goes on from there
    have hnext (first : List Token) (rest : List Char) (hlt : rest.length < cs.length)
        (hread : ∀ {ts tail}, Reads rest ts tail → Reads cs (first ++ ts) tail) :
        (∃ ts, Derives cs ts) ∨ LeftOpen cs := by
      rcases ih rest.length hlt rest rfl with ⟨ts, hts⟩ | ⟨ts, tail, hts, hopen⟩
      · exact .inl ⟨_, hread hts⟩
      · exact .inr ⟨_, tail, hread hts, hopen⟩
    cases cs with
    | nil => exact .inl ⟨[], .start⟩
    | cons c cs =>
      by_cases hblank : Text.isBlank c = true
      · exact hnext [] cs (by simp) (.blank hblank)
      by_cases hq : c = '"'
      · subst hq
        by_cases hclosed : Closed cs
        · obtain ⟨body, w, tail, hs, rfl⟩ := hclosed
          have hlt : tail.length < ('"' :: (body ++ '"' :: tail)).length := by
            simp only [List.length_cons, List.length_append]
            omega
          exact hnext [_] tail hlt (.quoted hs)
        · exact .inr ⟨[], cs, .start, not_closed_iff.mp hclosed⟩
      · obtain ⟨w, tail, hcut, hw, htail⟩ := exists_bare hblank hq cs
        rw [hcut] at hnext ⊢
        have hlt : tail.length < (w ++ tail).length := by
          have hpos := List.length_pos_iff.mpr hw.nonempty
          rw [List.length_append]
          omega
        exact hnext [_] tail hlt (.bare hw htail)

theorem LeftOpen.scan (h : LeftOpen cs) : scan cs = none := by
  obtain ⟨ts, rest, hts, hopen⟩ := h
  have hq : Text.isBlank '"' = false := rfl
  have hrest : Token.scan ('"' :: rest) = none := by
    simp [Token.scan, hq, scanQuoted_of_not_closed (not_closed_iff.mpr hopen)]
  rw [hts.scan, hrest]
  rfl

theorem scan_eq_some_iff : scan cs = some ts ↔ Derives cs ts := by
  have hsome {us} (h : Derives cs us) : scan cs = some us := by
    rw [h.scan]
    simp [Token.scan]
  refine ⟨fun h => ?_, hsome⟩
  rcases derives_or_leftOpen cs with ⟨us, hus⟩ | hopen
  · cases h.symm.trans (hsome hus)
    exact hus
  · cases h.symm.trans hopen.scan

theorem scan_eq_none_iff : scan cs = none ↔ LeftOpen cs := by
  refine ⟨fun h => ?_, LeftOpen.scan⟩
  rcases derives_or_leftOpen cs with ⟨us, hus⟩ | hopen
  · cases h.symm.trans (scan_eq_some_iff.mpr hus)
  · exact hopen

/-- The words of a line are what the grammar derives from it. -/
theorem ofLine_grammar (line : String) :
    (∀ ts, ofLine line = some ts ↔ Derives line.toList ts) ∧
    (∀ ts us, Derives line.toList ts → Derives line.toList us → ts = us) ∧
    (ofLine line = none ↔ ¬ ∃ ts, Derives line.toList ts) ∧
    (ofLine line = none ↔ LeftOpen line.toList) ∧
    ∀ ts, ofLine line = some ts → ∀ t ∈ ts, t.quoted = false → IsBare t.text.toList := by
  refine ⟨fun ts => scan_eq_some_iff, fun ts us hts hus => ?_, ?_, scan_eq_none_iff, ?_⟩
  · have hsame := (scan_eq_some_iff.mpr hts).symm.trans (scan_eq_some_iff.mpr hus)
    exact Option.some.inj hsame
  · rw [Option.eq_none_iff_forall_ne_some, not_exists]
    exact forall_congr' fun ts => not_congr scan_eq_some_iff
  · intro ts hts t ht
    have hword := scan_takenFrom (P := fun _ => True) (fun _ _ => trivial) hts t ht
    exact hword.wellFormed

/-- A quote inside a bare word, a word at the heels of a quoted one, and a quote behind one and
behind two backslashes. -/
theorem ofLine_grammar_quotes :
    Derives "a\"b \"x\\\"y\\\\\"c\\".toList [bare "a\"b", literal "x\"y\\", bare "c\\"] ∧
    LeftOpen "\"a\"\"b\\\"".toList :=
  ⟨((ofLine_grammar _).1 _).mp (by decide), (ofLine_grammar _).2.2.2.1.mp (by decide)⟩

end Playbook.Token
