import Mathlib.Data.List.Basic
import Playbook.Directory

/-!
# Units and their files

Bytes that are valid text are the bytes of no other text (`Text.ofBytes?_inj`). The name of a script
file is that of its unit with an extension, so two script files never have the same unit
(`FileName.unit?_inj`).
-/

namespace Playbook

namespace Text

-- ---------------------------------------------------------------------------
-- The bytes of a text
-- ---------------------------------------------------------------------------

def charBytes (n : Nat) : List Nat :=
  if n < 0x80 then [n]
  else if n < 0x800 then [0xC0 + n / 64, 0x80 + n % 64]
  else if n < 0x10000 then [0xE0 + n / 4096, 0x80 + n / 64 % 64, 0x80 + n % 64]
  else [0xF0 + n / 262144, 0x80 + n / 4096 % 64, 0x80 + n / 64 % 64, 0x80 + n % 64]

theorem decodeFrom_continued {p : Pending} (h : decodeFrom (some p) bytes = some c :: rest) :
    ∃ b bs, bytes = b :: bs ∧ p.low ≤ b.toNat ∧ b.toNat ≤ p.high ∧
      if p.missing ≤ 1 then
        c = Char.ofNat (p.bits * 64 + (b.toNat - 0x80)) ∧ decodeFrom none bs = rest
      else
        decodeFrom (some ⟨p.missing - 1, 0x80, 0xBF, p.bits * 64 + (b.toNat - 0x80)⟩) bs =
          some c :: rest := by
  cases bytes with
  | nil => simp [decodeFrom] at h
  | cons b bs =>
    simp only [decodeFrom, Pending.next] at h
    by_cases hb : p.low ≤ b.toNat ∧ b.toNat ≤ p.high
    · refine ⟨b, bs, rfl, hb.1, hb.2, ?_⟩
      rw [if_pos hb] at h
      split at h
      · rename_i hlast
        rw [if_pos hlast]
        simp only [List.cons_append, List.nil_append, List.cons.injEq, Option.some.injEq] at h
        exact ⟨h.1.symm, h.2⟩
      · rename_i hmore
        rw [if_neg hmore]
        exact h
    · simp [if_neg hb] at h

/-- How many bytes a first byte asks for, and what the second one may be. -/
theorem Pending.begin?_cases {p : Pending} (h : Pending.begin? a = some p) :
    (p.missing = 1 ∧ p.bits = a - 0xC0 ∧ 0xC2 ≤ a ∧ a ≤ 0xDF ∧ p.low = 0x80 ∧ p.high = 0xBF) ∨
    (p.missing = 2 ∧ p.bits = a - 0xE0 ∧ 0xE0 ≤ a ∧ a ≤ 0xEF ∧ 0x80 ≤ p.low ∧ p.high ≤ 0xBF ∧
      (a = 0xE0 → 0xA0 ≤ p.low) ∧ (a = 0xED → p.high ≤ 0x9F)) ∨
    (p.missing = 3 ∧ p.bits = a - 0xF0 ∧ 0xF0 ≤ a ∧ a ≤ 0xF4 ∧ 0x80 ≤ p.low ∧ p.high ≤ 0xBF ∧
      (a = 0xF0 → 0x90 ≤ p.low) ∧ (a = 0xF4 → p.high ≤ 0x8F)) := by
  unfold Pending.begin? at h
  repeat' split at h
  all_goals cases h
  all_goals
    dsimp only
    omega

theorem charBytes_ofNat (h : n < 0xD800 ∨ 0xDFFF < n ∧ n < 0x110000) :
    charBytes (Char.ofNat n).toNat = charBytes n := by
  have hvalid : n.isValidChar := h
  have hcode : (Char.ofNat n).toNat = n := by
    rw [Char.ofNat, dif_pos hvalid]
    rfl
  rw [hcode]

theorem decodeFrom_begun {p : Pending} (hp : Pending.begin? a = some p)
    (h : decodeFrom (some p) bytes = some c :: rest) :
    ∃ bs, a :: bytes.map UInt8.toNat = charBytes c.toNat ++ bs.map UInt8.toNat ∧
      decodeFrom none bs = rest := by
  obtain ⟨b, bytes, rfl, hlow, hhigh, h⟩ := decodeFrom_continued h
  rcases Pending.begin?_cases hp with ⟨hmissing, hbits, ha, ha', hl, hh⟩ |
    ⟨hmissing, hbits, ha, ha', hl, hh, hfirst, hlast⟩ |
    ⟨hmissing, hbits, ha, ha', hl, hh, hfirst, hlast⟩
  · rw [if_pos (by omega)] at h
    generalize hn : p.bits * 64 + (b.toNat - 0x80) = n at h
    obtain ⟨rfl, hrest⟩ := h
    refine ⟨bytes, ?_, hrest⟩
    rw [charBytes_ofNat (by omega), charBytes, if_neg (by omega), if_pos (by omega)]
    simp only [List.map_cons, List.cons_append, List.nil_append, List.cons.injEq, and_true]
    omega
  · rw [if_neg (by omega)] at h
    obtain ⟨b', bytes, rfl, hlow', hhigh', h⟩ := decodeFrom_continued h
    dsimp only at hlow' hhigh' h
    rw [if_pos (by omega)] at h
    generalize hn : (p.bits * 64 + (b.toNat - 0x80)) * 64 + (b'.toNat - 0x80) = n at h
    obtain ⟨rfl, hrest⟩ := h
    refine ⟨bytes, ?_, hrest⟩
    rw [charBytes_ofNat (by omega), charBytes, if_neg (by omega), if_neg (by omega),
      if_pos (by omega)]
    simp only [List.map_cons, List.cons_append, List.nil_append, List.cons.injEq, and_true]
    omega
  · rw [if_neg (by omega)] at h
    obtain ⟨b', bytes, rfl, hlow', hhigh', h⟩ := decodeFrom_continued h
    dsimp only at hlow' hhigh' h
    rw [if_neg (by omega)] at h
    obtain ⟨b'', bytes, rfl, hlow'', hhigh'', h⟩ := decodeFrom_continued h
    dsimp only at hlow'' hhigh'' h
    rw [if_pos (by omega)] at h
    generalize hn : ((p.bits * 64 + (b.toNat - 0x80)) * 64 + (b'.toNat - 0x80)) * 64 +
      (b''.toNat - 0x80) = n at h
    obtain ⟨rfl, hrest⟩ := h
    refine ⟨bytes, ?_, hrest⟩
    rw [charBytes_ofNat (by omega), charBytes, if_neg (by omega), if_neg (by omega),
      if_neg (by omega)]
    simp only [List.map_cons, List.cons_append, List.nil_append, List.cons.injEq, and_true]
    omega

theorem decodeFrom_head (h : decodeFrom none bytes = some c :: rest) :
    ∃ bs, bytes.map UInt8.toNat = charBytes c.toNat ++ bs.map UInt8.toNat ∧
      decodeFrom none bs = rest := by
  cases bytes with
  | nil => simp [decodeFrom] at h
  | cons b bs =>
    simp only [decodeFrom, Pending.first] at h
    by_cases hascii : b.toNat < 0x80
    · simp only [hascii, ↓reduceIte, List.cons_append, List.nil_append, List.cons.injEq,
        Option.some.injEq] at h
      refine ⟨bs, ?_, h.2⟩
      rw [← h.1, charBytes_ofNat (by omega), charBytes, if_pos hascii]
      rfl
    · simp only [hascii, ↓reduceIte] at h
      cases hp : Pending.begin? b.toNat with
      | none => simp [hp] at h
      | some p =>
        simp only [hp, List.nil_append] at h
        exact decodeFrom_begun hp h

theorem decodeFrom_pending_ne_nil (p : Pending) (bytes : List UInt8) :
    decodeFrom (some p) bytes ≠ [] := by
  induction bytes generalizing p with
  | nil => simp [decodeFrom]
  | cons b bs ih =>
    simp only [decodeFrom, Pending.next]
    split
    · split
      · simp
      · exact ih _
    · simp

theorem decodeFrom_eq_nil (h : decodeFrom none bytes = []) : bytes = [] := by
  cases bytes with
  | nil => rfl
  | cons b bs =>
    simp only [decodeFrom, Pending.first] at h
    split at h
    · simp at h
    · split at h
      · exact absurd h (decodeFrom_pending_ne_nil _ bs)
      · simp at h

theorem bytes_of_decodeFrom {cs : List Char} (h : decodeFrom none bytes = cs.map some) :
    bytes.map UInt8.toNat = cs.flatMap fun c => charBytes c.toNat := by
  induction cs generalizing bytes with
  | nil =>
    rw [decodeFrom_eq_nil h]
    rfl
  | cons c cs ih =>
    obtain ⟨bs, hbytes, hrest⟩ := decodeFrom_head h
    rw [hbytes, ih hrest]
    rfl

theorem mapM_id_eq_some {l : List (Option α)} {as : List α} (h : l.mapM id = some as) :
    l = as.map some := by
  induction l generalizing as with
  | nil =>
    cases h
    rfl
  | cons x l ih =>
    cases x with
    | none => simp at h
    | some a =>
      simp only [List.mapM_cons, id_eq, Option.pure_def, Option.bind_eq_bind, Option.bind_some,
        Option.bind_eq_some_iff, Option.some.injEq] at h
      obtain ⟨rest, hrest, rfl⟩ := h
      rw [ih hrest]
      rfl

theorem ofBytes?_inj (ha : ofBytes? a = some s) (hb : ofBytes? b = some s) : a = b := by
  obtain ⟨cs, hcs, rfl⟩ := Option.map_eq_some_iff.mp ha
  obtain ⟨ds, hds, heq⟩ := Option.map_eq_some_iff.mp hb
  obtain rfl := String.ofList_injective heq
  have ha := bytes_of_decodeFrom (mapM_id_eq_some hcs)
  have hb := bytes_of_decodeFrom (mapM_id_eq_some hds)
  exact List.map_injective_iff.mpr (fun _ _ => UInt8.toNat_inj.mp) (ha.trans hb.symm)

end Text

-- ---------------------------------------------------------------------------
-- Stems
-- ---------------------------------------------------------------------------

namespace FileName

theorem exists_stem {name : FileName} (h : name.extension? = some e) :
    ∃ stem, name = stem ++ dot :: e := by
  simp only [extension?, Option.ite_none_right_eq_some, Option.some.injEq] at h
  obtain ⟨hlength, rfl⟩ := h
  have hsplit := List.takeWhile_append_dropWhile (p := (· != dot)) (l := name.reverse)
  cases hrest : name.reverse.dropWhile (· != dot) with
  | nil =>
    rw [hrest, List.append_nil] at hsplit
    rw [hsplit, List.reverse_reverse] at hlength
    omega
  | cons c rest =>
    have hdot : c = dot := by
      have hhead := List.head?_dropWhile_not (· != dot) name.reverse
      rw [hrest] at hhead
      simpa using hhead
    refine ⟨rest.reverse, ?_⟩
    rw [← List.reverse_reverse name]
    nth_rewrite 1 [← hsplit]
    rw [hrest, hdot]
    simp

theorem eq_stem_append {name : FileName} (h : name.isScript = true)
    (hstem : name.stem? = some stem) : name = stem ++ dot :: Text.toBytes "txt" := by
  have hextension : name.extension? = some (Text.toBytes "txt") := by simpa [isScript] using h
  obtain ⟨start, hname⟩ := exists_stem hextension
  unfold stem? at hstem
  split at hstem
  · cases hstem
  · simp only [hextension, Option.some.injEq] at hstem
    have hlength : name.length - (Text.toBytes "txt").length - 1 = start.length := by
      rw [hname]
      simp only [List.length_append, List.length_cons]
      omega
    rw [hlength, hname, List.take_left] at hstem
    rw [← hstem]
    exact hname

theorem unit?_inj {a b : FileName} (ha : a.isScript = true) (hb : b.isScript = true)
    (hau : a.unit? = some unit) (hbu : b.unit? = some unit) : a = b := by
  obtain ⟨stem, hstem, hau⟩ := Option.bind_eq_some_iff.mp hau
  obtain ⟨stem', hstem', hbu⟩ := Option.bind_eq_some_iff.mp hbu
  rw [eq_stem_append ha hstem, eq_stem_append hb hstem', Text.ofBytes?_inj hau hbu]

theorem unit?_ne_empty {name : FileName} (h : name.isScript = true)
    (hunit : name.unit? = some unit) : unit ≠ "" := by
  rintro rfl
  obtain ⟨stem, hstem, hbytes⟩ := Option.bind_eq_some_iff.mp hunit
  obtain rfl : stem = [] := Text.ofBytes?_inj hbytes rfl
  rw [eq_stem_append h hstem] at h
  revert h
  decide +kernel

end FileName

end Playbook
