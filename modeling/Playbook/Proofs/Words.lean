import Playbook.Token

/-!
# Words read back

A word in its written form is read back as one word of the same text. Quotes
that a text does not need are not written, so a quoted word may come back bare
(`reread`), but never one that would then be taken for a variable or an arrow.

The words that reading gives are well formed: a bare word is not empty, holds
no blank and does not start with a quote. Their characters all stand on the
line.
-/

namespace Playbook.Token

structure IsBare (cs : List Char) : Prop where
  nonempty : cs ≠ []
  unquoted : cs.head? ≠ some '"'
  solid : ∀ c ∈ cs, Text.isBlank c = false

-- decided along the list, and not by going through all characters
instance (cs : List Char) : Decidable (∀ c ∈ cs, Text.isBlank c = false) :=
  List.decidableBAll _ cs

instance (cs : List Char) : Decidable (IsBare cs) :=
  decidable_of_iff (cs ≠ [] ∧ cs.head? ≠ some '"' ∧ ∀ c ∈ cs, Text.isBlank c = false)
    ⟨fun h => ⟨h.1, h.2.1, h.2.2⟩, fun h => ⟨h.nonempty, h.unquoted, h.solid⟩⟩

/-- A token as reading makes it: if it is bare, so is its text. -/
def WellFormed (t : Token) : Prop := t.quoted = false → IsBare t.text.toList

theorem wellFormed_literal (text : String) : (literal text).WellFormed := by
  simp [WellFormed, literal]

theorem wellFormed_bare {text : String} (h : IsBare text.toList) : (bare text).WellFormed :=
  fun _ => h

/-- What a bare word may be followed by: nothing, or a blank. -/
def Apart (cs : List Char) : Prop := ∀ c, cs.head? = some c → Text.isBlank c = true

theorem apart_nil : Apart [] := by simp [Apart]

theorem apart_space (cs : List Char) : Apart (' ' :: cs) := by
  intro c hc
  obtain rfl : ' ' = c := by simpa using hc
  rfl

-- ---------------------------------------------------------------------------
-- Reading one word
-- ---------------------------------------------------------------------------

theorem scan_blank (h : Text.isBlank c = true) : scan (c :: cs) = scan cs := by
  simp [scan, h]

theorem scanQuoted_other (hq : c ≠ '"') (h1 : ∀ ds, c = '\\' → cs ≠ '"' :: ds)
    (h2 : ∀ ds, c = '\\' → cs ≠ '\\' :: ds) :
    scanQuoted (c :: cs) = (scanQuoted cs).map fun r => (c :: r.1, r.2) := by
  rw [scanQuoted]
  · exact hq
  · exact h1
  · exact h2

theorem scanQuoted_plain (hq : c ≠ '"') (hb : c ≠ '\\') :
    scanQuoted (c :: cs) = (scanQuoted cs).map fun r => (c :: r.1, r.2) :=
  scanQuoted_other hq (fun _ h => absurd h hb) (fun _ h => absurd h hb)

theorem scanQuoted_escaped (h : c = '"' ∨ c = '\\') :
    scanQuoted ('\\' :: c :: cs) = (scanQuoted cs).map fun r => (c :: r.1, r.2) := by
  rcases h with rfl | rfl <;> simp [scanQuoted]

theorem scanQuoted_kept (hq : c ≠ '"') (hb : c ≠ '\\') :
    scanQuoted ('\\' :: c :: cs) = (scanQuoted cs).map fun r => ('\\' :: c :: r.1, r.2) := by
  rw [scanQuoted_other (by decide) (by simp [hq]) (by simp [hb]), scanQuoted_plain hq hb,
    Option.map_map]
  rfl

/-- Escaping is undone up to the closing quote. -/
theorem scanQuoted_escape (cs rest : List Char) :
    scanQuoted (escape cs ++ '"' :: rest) = (scan rest).map fun ts => (cs, ts) := by
  induction cs with
  | nil => simp [escape, scanQuoted]
  | cons c cs ih =>
    by_cases he : c = '"' ∨ c = '\\'
    · rw [escape, if_pos he, List.cons_append, List.cons_append, scanQuoted_escaped he, ih,
        Option.map_map]
      rfl
    · have hplain := not_or.mp he
      rw [escape, if_neg he, List.cons_append, scanQuoted_plain hplain.1 hplain.2, ih,
        Option.map_map]
      rfl

theorem scanBare_solid (hw : ∀ c ∈ w, Text.isBlank c = false) (hr : Apart rest) :
    scanBare (w ++ rest) = (scan rest).map fun ts => (w, ts) := by
  induction w with
  | nil =>
    cases rest with
    | nil => simp [scan, scanBare]
    | cons b rest =>
      have hb : Text.isBlank b = true := hr b rfl
      simp [scan, scanBare, hb]
  | cons c w ih =>
    have hc : Text.isBlank c = false := hw c (by simp)
    have ih := ih fun d hd => hw d (by simp [hd])
    simp [scanBare, hc, ih, Function.comp_def]

theorem scan_bare (h : IsBare w) (hr : Apart rest) :
    scan (w ++ rest) = (scan rest).map fun ts => bare (String.ofList w) :: ts := by
  cases w with
  | nil => exact absurd rfl h.nonempty
  | cons c w =>
    have hc : Text.isBlank c = false := h.solid c (by simp)
    have hq : c ≠ '"' := fun e => h.unquoted (by simp [e])
    have hs : ∀ d ∈ w, Text.isBlank d = false := fun d hd => h.solid d (by simp [hd])
    have hw := scanBare_solid hs hr
    simp [scan, hc, hq, hw, Function.comp_def]

theorem scan_literal (cs rest : List Char) :
    scan ('"' :: (escape cs ++ '"' :: rest)) =
      (scan rest).map fun ts => literal (String.ofList cs) :: ts := by
  have hq : Text.isBlank '"' = false := rfl
  simp [scan, hq, scanQuoted_escape, Function.comp_def]

-- ---------------------------------------------------------------------------
-- Written words
-- ---------------------------------------------------------------------------

/-- A token as it is after it has been written and read: quotes stay where they
are needed. -/
def reread (t : Token) : Token :=
  { t with quoted := t.quoted && needsQuotes t.text.toList }

@[simp] theorem reread_text (t : Token) : t.reread.text = t.text := rfl

@[simp] theorem reread_bare (text : String) : (bare text).reread = bare text := rfl

theorem reread_toSource (t : Token) : t.reread.toSource = t.toSource := by
  cases ht : t.quoted with
  | false => simp [toSource, reread, ht]
  | true =>
    cases hn : needsQuotes t.text.toList with
    | false => simp [toSource, reread, quote, render, ht, hn]
    | true => simp [toSource, reread, ht, hn]

theorem isBare_of_needsQuotes (h : needsQuotes cs = false) : IsBare cs := by
  cases cs with
  | nil => simp [needsQuotes] at h
  | cons c cs =>
    simp only [needsQuotes, Bool.or_eq_false_iff, decide_eq_false_iff_not, List.any_eq_false] at h
    refine ⟨by simp, ?_, fun d hd => by simpa using h.1.2 d hd⟩
    simpa using h.2.1.1.1

theorem scan_toSource {t : Token} (ht : t.WellFormed) (hr : Apart rest) :
    scan (t.toSource.toList ++ rest) = (scan rest).map fun ts => t.reread :: ts := by
  obtain ⟨text, quoted⟩ := t
  cases quoted with
  | false => simpa [toSource, reread, bare] using scan_bare (ht rfl) hr
  | true =>
    cases hn : needsQuotes text.toList with
    | false =>
      simpa [toSource, quote, render, reread, hn, bare] using
        scan_bare (isBare_of_needsQuotes hn) hr
    | true =>
      simpa [toSource, quote, render, reread, hn, literal] using scan_literal text.toList rest

/-- Words written with a space between each two of them are read back one by
one. -/
theorem scan_sentence {ts : List Token} (h : ∀ t ∈ ts, t.WellFormed) :
    scan (List.intercalate [' '] (ts.map fun t => t.toSource.toList)) = some (ts.map reread) := by
  induction ts with
  | nil => rfl
  | cons t ts ih =>
    have ht := h t (by simp)
    have ih := ih fun u hu => h u (by simp [hu])
    cases ts with
    | nil => simpa [scan] using scan_toSource ht apart_nil
    | cons u us =>
      have hsp : Text.isBlank ' ' = true := rfl
      rw [List.map_cons, List.map_cons, List.intercalate_cons_cons, List.append_assoc,
        List.singleton_append, scan_toSource ht (apart_space _), scan_blank hsp]
      rw [List.map_cons] at ih
      simp [ih]

theorem mem_escape (h : c ∈ escape cs) : c ∈ cs ∨ c = '"' ∨ c = '\\' := by
  induction cs with
  | nil => simp [escape] at h
  | cons d cs ih =>
    unfold escape at h
    split at h <;> simp only [List.mem_cons] at h ⊢ <;> grind

theorem mem_toSource {t : Token} (h : c ∈ t.toSource.toList) :
    c ∈ t.text.toList ∨ c = '"' ∨ c = '\\' := by
  unfold toSource at h
  split at h
  · simp only [quote, String.toList_ofList, render] at h
    split at h
    · simp only [List.mem_cons, List.mem_append, List.not_mem_nil, or_false] at h
      obtain h | h | h := h
      · exact .inr (.inl h)
      · exact mem_escape h
      · exact .inr (.inl h)
    · exact .inl h
  · exact .inl h

-- ---------------------------------------------------------------------------
-- The words of a line
-- ---------------------------------------------------------------------------

structure TakenFrom (P : Char → Prop) (t : Token) : Prop where
  wellFormed : t.WellFormed
  chars : ∀ c ∈ t.text.toList, P c

theorem takenFrom_literal (h : ∀ c ∈ cs, P c) : TakenFrom P (literal (String.ofList cs)) :=
  ⟨wellFormed_literal _, by simpa [literal] using h⟩

theorem takenFrom_bare (hb : IsBare cs) (h : ∀ c ∈ cs, P c) :
    TakenFrom P (bare (String.ofList cs)) :=
  ⟨wellFormed_bare (by simpa using hb), by simpa [bare] using h⟩

-- The three readers call each other, so the fact about words behind the place
-- reached goes through all of them at once; the pieces collected so far carry
-- their own part of it.
theorem scan_takenFrom_all (P : Char → Prop) :
    (∀ cs, (∀ c ∈ cs, P c) → ∀ ts, scan cs = some ts → ∀ t ∈ ts, TakenFrom P t) ∧
    (∀ cs, (∀ c ∈ cs, P c) → ∀ r, scanBare cs = some r →
      (∀ c ∈ r.1, Text.isBlank c = false ∧ P c) ∧ ∀ t ∈ r.2, TakenFrom P t) ∧
    (∀ cs, (∀ c ∈ cs, P c) → ∀ r, scanQuoted cs = some r →
      (∀ c ∈ r.1, P c) ∧ ∀ t ∈ r.2, TakenFrom P t) := by
  apply scan.mutual_induct
  case case1 =>
    intro _ ts h
    simp only [scan, Option.some.injEq] at h
    simp [← h]
  case case2 =>
    intro c cs hc ih hP ts h
    exact ih (fun d hd => hP d (by simp [hd])) ts (by simpa [scan, hc] using h)
  case case3 =>
    intro cs hc ih hP ts h
    simp only [scan, hc, Bool.false_eq_true, ↓reduceIte, Option.map_eq_some_iff] at h
    obtain ⟨r, hr, rfl⟩ := h
    obtain ⟨htext, hrest⟩ := ih (fun d hd => hP d (by simp [hd])) r hr
    intro t ht
    obtain rfl | ht := List.mem_cons.mp ht
    · exact takenFrom_literal htext
    · exact hrest t ht
  case case4 =>
    intro c cs hc hq ih hP ts h
    simp only [scan, hc, hq, Bool.false_eq_true, ↓reduceIte, Option.map_eq_some_iff] at h
    obtain ⟨r, hr, rfl⟩ := h
    obtain ⟨htext, hrest⟩ := ih (fun d hd => hP d (by simp [hd])) r hr
    intro t ht
    obtain rfl | ht := List.mem_cons.mp ht
    · refine takenFrom_bare ⟨by simp, by simpa using hq, ?_⟩ ?_
      · intro d hd
        obtain rfl | hd := List.mem_cons.mp hd
        · simpa using hc
        · exact (htext d hd).1
      · intro d hd
        obtain rfl | hd := List.mem_cons.mp hd
        · exact hP d (by simp)
        · exact (htext d hd).2
    · exact hrest t ht
  case case5 =>
    intro _ r h
    simp only [scanBare, Option.some.injEq] at h
    simp [← h]
  case case6 =>
    intro c cs hc ih hP r h
    simp only [scanBare, hc, ↓reduceIte, Option.map_eq_some_iff] at h
    obtain ⟨ts, hts, rfl⟩ := h
    exact ⟨by simp, ih (fun d hd => hP d (by simp [hd])) ts hts⟩
  case case7 =>
    intro c cs hc ih hP r h
    simp only [scanBare, hc, Bool.false_eq_true, ↓reduceIte, Option.map_eq_some_iff] at h
    obtain ⟨r, hr, rfl⟩ := h
    obtain ⟨htext, hrest⟩ := ih (fun d hd => hP d (by simp [hd])) r hr
    refine ⟨fun d hd => ?_, hrest⟩
    obtain rfl | hd := List.mem_cons.mp hd
    · exact ⟨by simpa using hc, hP d (by simp)⟩
    · exact htext d hd
  case case8 =>
    intro _ r h
    simp [scanQuoted] at h
  case case9 =>
    intro cs ih hP r h
    simp only [scanQuoted, Option.map_eq_some_iff] at h
    obtain ⟨ts, hts, rfl⟩ := h
    exact ⟨by simp, ih (fun d hd => hP d (by simp [hd])) ts hts⟩
  case case10 =>
    intro cs ih hP r h
    simp only [scanQuoted, Option.map_eq_some_iff] at h
    obtain ⟨r, hr, rfl⟩ := h
    obtain ⟨htext, hrest⟩ := ih (fun d hd => hP d (by simp [hd])) r hr
    exact ⟨by simpa using ⟨hP '"' (by simp), htext⟩, hrest⟩
  case case11 =>
    intro cs ih hP r h
    simp only [scanQuoted, Option.map_eq_some_iff] at h
    obtain ⟨r, hr, rfl⟩ := h
    obtain ⟨htext, hrest⟩ := ih (fun d hd => hP d (by simp [hd])) r hr
    exact ⟨by simpa using ⟨hP '\\' (by simp), htext⟩, hrest⟩
  case case12 =>
    intro c cs hq h1 h2 ih hP r h
    rw [scanQuoted_other hq h1 h2, Option.map_eq_some_iff] at h
    obtain ⟨r, hr, rfl⟩ := h
    obtain ⟨htext, hrest⟩ := ih (fun d hd => hP d (by simp [hd])) r hr
    exact ⟨by simpa using ⟨hP c (by simp), htext⟩, hrest⟩

theorem scan_takenFrom (hP : ∀ c ∈ cs, P c) (h : scan cs = some ts) :
    ∀ t ∈ ts, TakenFrom P t :=
  (scan_takenFrom_all P).1 cs hP ts h

end Playbook.Token
