import Playbook.Proofs.Faults

/-!
# Words set on a line

Words in their written form, with a gap between each two of them, are read back one by one, however
wide the gaps are (`ofLine_spread`). A bare word comes back as it was. A literal comes back with its
text, and nothing takes it for something else: neither for a variable nor for an arrow, and where it
stands first, the line is a statement and no comment or header.
-/

namespace Playbook.Token

def spread (trail : List Char) : List (List Char × Token) → List Char
  | [] => trail
  | (gap, t) :: ws => gap ++ (t.toSource.toList ++ spread trail ws)

/-- The gaps are blank, and only the first word may do without one. -/
structure Spaced (trail : List Char) (ws : List (List Char × Token)) : Prop where
  gaps : ∀ w ∈ ws, ∀ c ∈ w.1, Text.isBlank c = true
  apart : ∀ w ∈ ws.tail, w.1 ≠ []
  ends : ∀ c ∈ trail, Text.isBlank c = true

instance (trail : List Char) (ws : List (List Char × Token)) : Decidable (Spaced trail ws) :=
  decidable_of_iff
    ((∀ w ∈ ws, w.1.all Text.isBlank = true) ∧ (∀ w ∈ ws.tail, w.1 ≠ []) ∧
      trail.all Text.isBlank = true)
    ⟨fun h => ⟨fun w hw => List.all_eq_true.mp (h.1 w hw), h.2.1, List.all_eq_true.mp h.2.2⟩,
      fun h => ⟨fun w hw => List.all_eq_true.mpr (h.gaps w hw), h.apart,
        List.all_eq_true.mpr h.ends⟩⟩

instance (t : Token) : Decidable t.WellFormed := inferInstanceAs (Decidable (_ → _))

structure ComesBack (w t : Token) : Prop where
  text : t.text = w.text
  bare : w.quoted = false → t.quoted = false
  quoted : w.quoted = true → w.text.toList.head? = some '$' ∨ w.text = "->" → t.quoted = true
  literal : w.quoted = true → Compile.variableName? t = none ∧ Compile.isArrow t = false

-- ---------------------------------------------------------------------------
-- Gaps
-- ---------------------------------------------------------------------------

theorem Spaced.behind (h : Spaced trail (w :: ws)) : Spaced trail ws :=
  ⟨fun v hv => h.gaps v (List.mem_cons_of_mem _ hv),
    fun v hv => h.apart v (List.mem_of_mem_tail hv), h.ends⟩

theorem Spaced.apart_behind (h : Spaced trail (w :: ws)) : Apart (spread trail ws) := by
  intro c hc
  cases ws with
  | nil => exact h.ends c (List.mem_of_head? hc)
  | cons v ws =>
    obtain ⟨gap, t⟩ := v
    have hv : (gap, t) ∈ (gap, t) :: ws := List.mem_cons_self
    obtain ⟨b, gap, rfl⟩ := List.exists_cons_of_ne_nil (h.apart _ hv)
    obtain rfl : b = c := by simpa [spread] using hc
    exact h.behind.gaps _ hv b List.mem_cons_self

theorem scan_blanks (h : ∀ c ∈ gap, Text.isBlank c = true) : scan (gap ++ cs) = scan cs := by
  induction gap with
  | nil => rfl
  | cons c gap ih =>
    obtain ⟨hc, hgap⟩ := List.forall_mem_cons.mp h
    rw [List.cons_append, scan_blank hc, ih hgap]

theorem scan_spread (hs : Spaced trail ws) (hw : ∀ w ∈ ws, w.2.WellFormed) :
    scan (spread trail ws) = some (ws.map fun w => w.2.reread) := by
  induction ws with
  | nil =>
    have hend : scan (trail ++ []) = scan [] := scan_blanks hs.ends
    simpa [spread, scan] using hend
  | cons w ws ih =>
    obtain ⟨gap, t⟩ := w
    obtain ⟨ht, hws⟩ := List.forall_mem_cons.mp hw
    have hgap : ∀ c ∈ gap, Text.isBlank c = true := hs.gaps (gap, t) List.mem_cons_self
    rw [spread, scan_blanks hgap, scan_toSource ht hs.apart_behind, ih hs.behind hws]
    rfl

-- ---------------------------------------------------------------------------
-- The first word of a line
-- ---------------------------------------------------------------------------

theorem spread_eq_append (trail : List Char) (ws : List (List Char × Token)) :
    spread trail ws = spread [] ws ++ trail := by
  induction ws with
  | nil => rfl
  | cons w ws ih => simp only [spread, ih, List.append_assoc]

theorem firm_spread (ht : t.WellFormed) (hw : ∀ w ∈ ws, w.2.WellFormed) :
    Text.Firm (spread [] (([], t) :: ws)) := by
  induction ws generalizing t with
  | nil => simpa [spread] using Text.firm_toSource ht
  | cons w ws ih =>
    obtain ⟨hu, hws⟩ := List.forall_mem_cons.mp hw
    simpa [spread] using (Text.firm_toSource ht).append (ih hu hws) w.1

theorem isStatement_literal (s : String) (cs : List Char) :
    Compile.isStatement ((literal s).toSource.toList ++ cs) = true := by
  cases hn : needsQuotes s.toList with
  | true => simp [toSource, literal, quote, render, hn, Compile.isStatement]
  | false =>
    obtain ⟨c, ds, hcs⟩ := List.exists_cons_of_ne_nil (isBare_of_needsQuotes hn).nonempty
    rw [hcs] at hn
    have hc : c ≠ '#' ∧ c ≠ ';' := by
      simp only [needsQuotes, Bool.or_eq_false_iff, decide_eq_false_iff_not] at hn
      exact ⟨hn.2.1.2, hn.2.2⟩
    simp [toSource, literal, quote, render, hcs, hn, Compile.isStatement, hc]

theorem read_spread (hs : Spaced trail ((gap, literal s) :: ws))
    (hw : ∀ w ∈ ws, w.2.WellFormed) :
    Compile.Line.read (spread trail ((gap, literal s) :: ws)) =
      .statement (spread [] (([], literal s) :: ws)) := by
  have hfirm := firm_spread (wellFormed_literal s) hw
  have hgap : ∀ c ∈ gap, Text.isBlank c = true := hs.gaps (gap, _) List.mem_cons_self
  have htrim : Text.trim (spread trail ((gap, literal s) :: ws)) =
      spread [] (([], literal s) :: ws) := by
    have hline : spread trail ((gap, literal s) :: ws) =
        gap ++ (spread [] (([], literal s) :: ws) ++ trail) := by
      simp only [spread, spread_eq_append trail ws, List.nil_append, List.append_assoc]
    rw [hline, hfirm.trim_padded hgap hs.ends]
  have hstatement := isStatement_literal s (spread [] ws)
  rw [Compile.Line.read_of_isStatement, htrim]
  rw [htrim]
  exact hstatement

-- ---------------------------------------------------------------------------
-- Reading back
-- ---------------------------------------------------------------------------

theorem needsQuotes_special {s : String} (h : s.toList.head? = some '$' ∨ s = "->") :
    needsQuotes s.toList = true := by
  rcases h with h | rfl
  · obtain ⟨cs, hcs⟩ : ∃ cs, s.toList = '$' :: cs := List.head?_eq_some_iff.mp h
    simp [needsQuotes, hcs]
  · rfl

theorem comesBack_reread (w : Token) : w.ComesBack w.reread := by
  obtain ⟨s, quoted⟩ := w
  refine ⟨rfl, fun hw => by simp [reread, show quoted = false from hw], ?_, ?_⟩
  · intro hw h
    rw [reread, needsQuotes_special h, Bool.and_true]
    exact hw
  · intro hw
    obtain rfl : quoted = true := hw
    exact ⟨Compile.variableName?_reread_literal s, Compile.isArrow_reread rfl⟩

/-- Words that stand apart on a line are read back, and a literal stays a literal. -/
theorem ofLine_spread {trail : List Char} {ws : List (List Char × Token)} (hs : Spaced trail ws)
    (hw : ∀ w ∈ ws, w.2.WellFormed) :
    ∃ ts, ofLine (String.ofList (spread trail ws)) = some ts ∧
      List.Forall₂ ComesBack (ws.map Prod.snd) ts ∧
      ∀ s, (ws.map Prod.snd).head? = some (literal s) →
        ∃ cs, Compile.Line.read (spread trail ws) = .statement cs ∧ scan cs = some ts := by
  refine ⟨ws.map fun w => w.2.reread, ?_, ?_, ?_⟩
  · rw [ofLine, String.toList_ofList, scan_spread hs hw]
  · rw [List.forall₂_map_left_iff, List.forall₂_map_right_iff, List.forall₂_same]
    exact fun w _ => comesBack_reread w.2
  · intro s hfirst
    cases ws with
    | nil => cases hfirst
    | cons w ws =>
      obtain ⟨gap, t⟩ := w
      obtain rfl : t = literal s := by simpa using hfirst
      obtain ⟨ht, hws⟩ := List.forall_mem_cons.mp hw
      have hcore : Spaced [] (([], literal s) :: ws) :=
        ⟨List.forall_mem_cons.mpr ⟨by simp, hs.behind.gaps⟩, hs.apart, by simp⟩
      refine ⟨_, read_spread hs hws, ?_⟩
      rw [scan_spread hcore (List.forall_mem_cons.mpr ⟨ht, hws⟩)]
      rfl

/-- A comment sign, a dollar sign, an arrow and a backslash in front of a quote, as literals, with
a bare word and an empty one between them, behind tabs and wide spaces. -/
theorem ofLine_spread_signs :
    let ws : List (List Char × Token) :=
      [(['\t'], literal "#1"), ([' ', '\u3000'], literal "$who"), (['\r'], bare "a\"b\\"),
       (['\u00a0'], literal ""), ([' '], literal "->"), ([' '], literal "say \\\"")]
    Spaced [' '] ws ∧ (∀ w ∈ ws, w.2.WellFormed) ∧
    ∃ ts, ofLine (String.ofList (spread [' '] ws)) = some ts ∧
      List.Forall₂ ComesBack (ws.map Prod.snd) ts ∧
      ∃ cs, Compile.Line.read (spread [' '] ws) = .statement cs ∧ scan cs = some ts := by
  intro ws
  have hs : Spaced [' '] ws := by decide
  have hw : ∀ w ∈ ws, w.2.WellFormed := by decide
  obtain ⟨ts, hts, hback, hfirst⟩ := ofLine_spread hs hw
  exact ⟨hs, hw, ts, hts, hback, hfirst "#1" rfl⟩

end Playbook.Token
