import Playbook.Compile
import Playbook.Proofs.Words

/-!
# Lines and their ends

Lines that hold no line feed, each with one behind it, are cut apart again, with
an empty line at the end. A line that starts and ends with something other than
a blank is left alone by trimming.
-/

namespace Playbook.Text

-- ---------------------------------------------------------------------------
-- Cutting
-- ---------------------------------------------------------------------------

theorem pieces_cons_ne (cs : List Char) (h : c ≠ sep) :
    ∃ first rest, pieces sep cs = first :: rest ∧
      pieces sep (c :: cs) = (c :: first) :: rest := by
  cases hp : pieces sep cs with
  | nil => exact absurd hp (pieces_ne_nil sep cs)
  | cons first rest => exact ⟨first, rest, rfl, by simp [pieces, h, hp]⟩

theorem pieces_append {l : List Char} (h : sep ∉ l) :
    pieces sep (l ++ sep :: rest) = l :: pieces sep rest := by
  induction l with
  | nil => simp [pieces]
  | cons c l ih =>
    simp only [List.mem_cons, not_or] at h
    have hc : c ≠ sep := fun e => h.1 e.symm
    simp [pieces, hc, ih h.2]

theorem pieces_of_not_mem {l : List Char} (h : sep ∉ l) : pieces sep l = [l] := by
  induction l with
  | nil => rfl
  | cons c l ih =>
    simp only [List.mem_cons, not_or] at h
    simp [pieces, Ne.symm h.1, ih h.2]

theorem pieces_intercalate {ls : List (List Char)} (hne : ls ≠ []) (h : ∀ l ∈ ls, sep ∉ l) :
    pieces sep (List.intercalate [sep] ls) = ls := by
  induction ls with
  | nil => exact absurd rfl hne
  | cons l ls ih =>
    obtain ⟨hl, hls⟩ := List.forall_mem_cons.mp h
    cases ls with
    | nil => simpa using pieces_of_not_mem hl
    | cons m ms =>
      rw [List.intercalate_cons_cons, List.append_assoc, List.singleton_append, pieces_append hl,
        ih (by simp) hls]

theorem lines_flatMap (ls : List (List Char)) (h : ∀ l ∈ ls, '\n' ∉ l) :
    lines (ls.flatMap fun l => l ++ ['\n']) = ls ++ [[]] := by
  induction ls with
  | nil => rfl
  | cons l ls ih =>
    have hl : '\n' ∉ l := h l (by simp)
    have ih := ih fun m hm => h m (by simp [hm])
    simp only [lines, List.flatMap_cons, List.append_assoc, List.singleton_append] at ih ⊢
    rw [pieces_append hl, ih]
    rfl

theorem sep_not_mem_pieces : ∀ l ∈ pieces sep cs, sep ∉ l := by
  induction cs with
  | nil => simp [pieces]
  | cons c cs ih =>
    by_cases hc : c = sep
    · simpa [pieces, hc] using ih
    · obtain ⟨first, rest, hcs, hccs⟩ := pieces_cons_ne cs hc
      rw [hccs]
      rw [hcs] at ih
      intro l hl
      obtain rfl | hl := List.mem_cons.mp hl
      · have := ih first (by simp)
        simp [this, Ne.symm hc]
      · exact ih l (by simp [hl])

theorem mem_intercalate {ws : List (List Char)} (h : c ∈ List.intercalate sep ws) :
    c ∈ sep ∨ ∃ w ∈ ws, c ∈ w := by
  induction ws with
  | nil => simp at h
  | cons w ws ih =>
    cases ws with
    | nil => exact .inr ⟨w, by simp, by simpa using h⟩
    | cons v vs =>
      rw [List.intercalate_cons_cons, List.mem_append, List.mem_append] at h
      obtain (h | h) | h := h
      · exact .inr ⟨w, by simp, h⟩
      · exact .inl h
      · obtain h | ⟨u, hu, h⟩ := ih h
        · exact .inl h
        · exact .inr ⟨u, by simp [hu], h⟩

theorem intercalate_newline (ls : List (List Char)) (h : ls ≠ []) :
    List.intercalate ['\n'] ls ++ ['\n'] = ls.flatMap fun l => l ++ ['\n'] := by
  induction ls with
  | nil => exact absurd rfl h
  | cons l ls ih =>
    cases ls with
    | nil => simp
    | cons m ms =>
      rw [List.intercalate_cons_cons, List.flatMap_cons, ← ih (by simp)]
      simp

-- ---------------------------------------------------------------------------
-- Trimming
-- ---------------------------------------------------------------------------

theorem mem_of_mem_trim (h : c ∈ trim cs) : c ∈ cs := by
  simp only [trim, List.mem_reverse] at h
  have h := (List.dropWhile_sublist _).subset h
  exact (List.dropWhile_sublist _).subset (List.mem_reverse.mp h)

structure Firm (cs : List Char) : Prop where
  nonempty : cs ≠ []
  first : ∀ c, cs.head? = some c → isBlank c = false
  last : ∀ c, cs.getLast? = some c → isBlank c = false

theorem dropWhile_blank {cs : List Char} (h : ∀ c, cs.head? = some c → isBlank c = false) :
    cs.dropWhile isBlank = cs := by
  cases cs with
  | nil => rfl
  | cons c cs => simp [h c rfl]

/-- Trimming takes the blanks around a text away that has none at its ends, and nothing else. -/
theorem Firm.trim_padded (h : Firm cs) (hbefore : ∀ c ∈ before, isBlank c = true)
    (hafter : ∀ c ∈ after, isBlank c = true) : Text.trim (before ++ (cs ++ after)) = cs := by
  have hfront : (before ++ (cs ++ after)).dropWhile isBlank = cs ++ after := by
    rw [List.dropWhile_append_of_pos hbefore, dropWhile_blank]
    intro c hc
    obtain ⟨d, ds, rfl⟩ := List.exists_cons_of_ne_nil h.nonempty
    exact h.first c (by simpa using hc)
  have hback : (after.reverse ++ cs.reverse).dropWhile isBlank = cs.reverse := by
    rw [List.dropWhile_append_of_pos (by simpa using hafter), dropWhile_blank]
    exact fun c hc => h.last c (by simpa using hc)
  rw [Text.trim, hfront, List.reverse_append, hback, List.reverse_reverse]

theorem Firm.trim (h : Firm cs) : trim cs = cs := by
  have hpadded : Text.trim ([] ++ (cs ++ [])) = cs := h.trim_padded (by simp) (by simp)
  simpa using hpadded

theorem firm_of_solid (hne : cs ≠ []) (h : ∀ c ∈ cs, isBlank c = false) : Firm cs :=
  ⟨hne, fun c hc => h c (List.mem_of_head? hc), fun c hc => h c (List.mem_of_getLast? hc)⟩

theorem Firm.append (hv : Firm v) (hw : Firm w) (mid : List Char) : Firm (v ++ (mid ++ w)) := by
  refine ⟨by simp [hv.nonempty], ?_, ?_⟩
  · intro c hc
    obtain ⟨d, v', rfl⟩ := List.exists_cons_of_ne_nil hv.nonempty
    exact hv.first c (by simpa using hc)
  · intro c hc
    have hlast : (v ++ (mid ++ w)).getLast? = w.getLast? := by
      cases hl : w.getLast? with
      | none => exact absurd (List.getLast?_eq_none_iff.mp hl) hw.nonempty
      | some d => simp [hl]
    exact hw.last c (hlast ▸ hc)

theorem firm_intercalate {ws : List (List Char)} (hne : ws ≠ []) (h : ∀ w ∈ ws, Firm w)
    (sep : List Char) : Firm (List.intercalate sep ws) := by
  induction ws with
  | nil => exact absurd rfl hne
  | cons w ws ih =>
    cases ws with
    | nil => simpa using h w (by simp)
    | cons v vs =>
      rw [List.intercalate_cons_cons, List.append_assoc]
      exact (h w (by simp)).append (ih (by simp) fun u hu => h u (by simp [hu])) sep

theorem firm_toSource {t : Token} (h : t.WellFormed) : Firm t.toSource.toList := by
  obtain ⟨text, quoted⟩ := t
  have hbare : ∀ {cs}, Token.IsBare cs → Firm cs := fun hb => firm_of_solid hb.nonempty hb.solid
  cases quoted with
  | false => exact hbare (h rfl)
  | true =>
    cases hn : Token.needsQuotes text.toList with
    | false =>
      have hb := hbare (Token.isBare_of_needsQuotes hn)
      simpa [Token.toSource, Token.quote, Token.render, hn] using hb
    | true =>
      have hq : isBlank '"' = false := rfl
      have hone : Firm ['"'] := firm_of_solid (by simp) (by simp [hq])
      simpa [Token.toSource, Token.quote, Token.render, hn] using
        hone.append hone (Token.escape text.toList)

end Playbook.Text
