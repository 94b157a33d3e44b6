import Playbook.Proofs.Lines
import Playbook.Proofs.Storing

/-!
# Integers and their texts

An integer is spelled by digits, with a sign in front or without (`Number.Denotes`). Reading gives
a 64-bit integer exactly for the texts that denote one in its range (`Number.readSigned_eq_ok`):
digits are read from the left against a limit, and a number that is within it at its end has been
within it all along. The text that is written for an integer denotes it, holds no comma and has no
blanks at its ends, so that it is read back on its own and as an item of a list.
-/

namespace Playbook

-- ---------------------------------------------------------------------------
-- Digits
-- ---------------------------------------------------------------------------

theorem Except.map_eq_ok {x : Except ε α} {f : α → β} :
    x.map f = .ok b ↔ ∃ a, x = .ok a ∧ f a = b := by
  cases x <;> simp [Except.map]

namespace Number

structure IsDigits (ds : List Char) : Prop where
  nonempty : ds ≠ []
  digit : ∀ c ∈ ds, c.isDigit = true

/-- The texts of an integer: digits, possibly behind a sign. -/
inductive Denotes : List Char → Int → Prop
  | plain : IsDigits ds → Denotes ds (Nat.ofDigitChars 10 ds 0)
  | plus : IsDigits ds → Denotes ('+' :: ds) (Nat.ofDigitChars 10 ds 0)
  | minus : IsDigits ds → Denotes ('-' :: ds) (-(Nat.ofDigitChars 10 ds 0 : Int))

theorem digit?_eq (c : Char) :
    digit? c = if c.isDigit = true then some (c.toNat - '0'.toNat) else none := by
  simp only [digit?, Char.isDigit_iff_toNat, Char.le_def, UInt32.le_iff_toNat_le]
  rfl

theorem le_ofDigitChars (cs : List Char) (acc : Nat) : acc ≤ Nat.ofDigitChars 10 cs acc := by
  rw [Nat.ofDigitChars_eq_ofDigitChars_zero]
  exact Nat.le_trans (Nat.le_mul_of_pos_left acc (Nat.pow_pos (by decide))) (Nat.le_add_right _ _)

theorem readDigits_eq_ok (h : acc ≤ limit) : readDigits limit excess acc cs = .ok n ↔
    (∀ c ∈ cs, c.isDigit = true) ∧ Nat.ofDigitChars 10 cs acc = n ∧ n ≤ limit := by
  induction cs generalizing acc with
  | nil =>
    simp only [readDigits, Except.ok.injEq, List.not_mem_nil, Nat.ofDigitChars_nil]
    exact ⟨fun hn => ⟨by simp, hn, hn ▸ h⟩, fun hn => hn.2.1⟩
  | cons c cs ih =>
    rw [readDigits, digit?_eq, List.forall_mem_cons, Nat.ofDigitChars_cons, Nat.mul_comm 10 acc]
    by_cases hc : c.isDigit = true
    · simp only [hc, if_true, true_and]
      split
      · rename_i hle
        exact ih hle
      · -- later digits only make the number larger
        rename_i hgt
        refine iff_of_false (by simp) ?_
        rintro ⟨-, rfl, hle⟩
        exact hgt (Nat.le_trans (le_ofDigitChars cs _) hle)
    · simp [hc]

theorem readMagnitude_eq_ok : readMagnitude limit excess cs = .ok n ↔
    IsDigits cs ∧ Nat.ofDigitChars 10 cs 0 = n ∧ n ≤ limit := by
  cases cs with
  | nil => exact iff_of_false (by simp [readMagnitude]) fun h => h.1.nonempty rfl
  | cons c cs =>
    rw [readMagnitude, readDigits_eq_ok (Nat.zero_le _)]
    · exact ⟨fun h => ⟨⟨by simp, h.1⟩, h.2⟩, fun h => ⟨h.1.digit, h.2⟩⟩
    · simp

-- ---------------------------------------------------------------------------
-- Integers
-- ---------------------------------------------------------------------------

theorem IsDigits.head_ne (h : IsDigits (c :: cs)) : c ≠ '-' ∧ c ≠ '+' ∧ c ≠ '#' := by
  have hc := h.digit c (.head _)
  refine ⟨?_, ?_, ?_⟩ <;> rintro rfl <;> exact absurd hc (by decide)

theorem toInt_bounds (i : Int64) :
    -0x8000000000000000 ≤ i.toInt ∧ i.toInt < 0x8000000000000000 :=
  ⟨i.le_toInt, i.toInt_lt⟩

theorem ofInt_eq_iff {n : Int} (hlow : -0x8000000000000000 ≤ n) (hhigh : n < 0x8000000000000000) :
    Int64.ofInt n = i ↔ i.toInt = n := by
  constructor
  · rintro rfl
    exact Int64.toInt_ofInt_of_le hlow hhigh
  · rintro rfl
    exact Int64.ofInt_toInt i

theorem readSigned_minus (cs : List Char) : readSigned ('-' :: cs) =
    (readMagnitude 0x8000000000000000 .tooSmall cs).map
      fun n : Nat => Int64.ofInt (-(n : Int)) := by
  rw [readSigned]
  cases readMagnitude 0x8000000000000000 .tooSmall cs <;> rfl

theorem readSigned_plus (cs : List Char) : readSigned ('+' :: cs) =
    (readMagnitude 0x7FFFFFFFFFFFFFFF .tooLarge cs).map fun n : Nat => Int64.ofInt n := by
  rw [readSigned]
  cases readMagnitude 0x7FFFFFFFFFFFFFFF .tooLarge cs <;> rfl

theorem readSigned_plain (h : c ≠ '-') (h' : c ≠ '+') : readSigned (c :: cs) =
    (readMagnitude 0x7FFFFFFFFFFFFFFF .tooLarge (c :: cs)).map fun n : Nat => Int64.ofInt n := by
  rw [readSigned]
  · cases readMagnitude 0x7FFFFFFFFFFFFFFF .tooLarge (c :: cs) <;> rfl
  · simp
  · simp [h]
  · simp [h']

/-- The digits of a 64-bit integer with a sign in front. The limit of each sign is the last number
that fits. -/
theorem map_ofInt_eq_ok {f : Nat → Int} (hf : ∀ n, n ≤ limit ↔
      -0x8000000000000000 ≤ f n ∧ f n < 0x8000000000000000) :
    ((readMagnitude limit excess cs).map fun n => Int64.ofInt (f n)) = .ok i ↔
      IsDigits cs ∧ f (Nat.ofDigitChars 10 cs 0) = i.toInt := by
  simp only [Except.map_eq_ok, readMagnitude_eq_ok]
  constructor
  · rintro ⟨n, ⟨hds, rfl, hle⟩, hi⟩
    have hfits := (hf _).mp hle
    exact ⟨hds, ((ofInt_eq_iff hfits.1 hfits.2).mp hi).symm⟩
  · rintro ⟨hds, hi⟩
    have hfits := hi ▸ toInt_bounds i
    exact ⟨_, ⟨hds, rfl, (hf _).mpr hfits⟩, (ofInt_eq_iff hfits.1 hfits.2).mpr hi.symm⟩

theorem readSigned_eq_ok : readSigned cs = .ok i ↔ Denotes cs i.toInt := by
  have hpositive (n : Nat) : n ≤ 0x7FFFFFFFFFFFFFFF ↔
      -0x8000000000000000 ≤ (n : Int) ∧ (n : Int) < 0x8000000000000000 := by omega
  have hnegative (n : Nat) : n ≤ 0x8000000000000000 ↔
      -0x8000000000000000 ≤ -(n : Int) ∧ -(n : Int) < 0x8000000000000000 := by omega
  constructor
  · intro h
    cases cs with
    | nil => cases h
    | cons c cs =>
      by_cases hminus : c = '-'
      · subst hminus
        rw [readSigned_minus, map_ofInt_eq_ok hnegative] at h
        exact h.2 ▸ .minus h.1
      by_cases hplus : c = '+'
      · subst hplus
        rw [readSigned_plus, map_ofInt_eq_ok hpositive] at h
        exact h.2 ▸ .plus h.1
      rw [readSigned_plain hminus hplus, map_ofInt_eq_ok hpositive] at h
      exact h.2 ▸ .plain h.1
  · generalize hn : i.toInt = n
    rintro (@⟨ds, hds⟩ | @⟨ds, hds⟩ | @⟨ds, hds⟩)
    · obtain ⟨c, cs, rfl⟩ := List.exists_cons_of_ne_nil hds.nonempty
      obtain ⟨hminus, hplus, -⟩ := hds.head_ne
      rw [readSigned_plain hminus hplus, map_ofInt_eq_ok hpositive]
      exact ⟨hds, hn.symm⟩
    · rw [readSigned_plus, map_ofInt_eq_ok hpositive]
      exact ⟨hds, hn.symm⟩
    · rw [readSigned_minus, map_ofInt_eq_ok hnegative]
      exact ⟨hds, hn.symm⟩

theorem readUnsigned_of_isDigits (h : IsDigits ds)
    (hfits : Nat.ofDigitChars 10 ds 0 ≤ 0xFFFFFFFFFFFFFFFF) :
    readUnsigned ds = .ok (UInt64.ofNat (Nat.ofDigitChars 10 ds 0)) := by
  obtain ⟨c, cs, rfl⟩ := List.exists_cons_of_ne_nil h.nonempty
  rw [readUnsigned]
  · rw [readMagnitude_eq_ok.mpr ⟨h, rfl, hfits⟩]
    rfl
  · simp
  · simp [h.head_ne.2.1]

-- ---------------------------------------------------------------------------
-- The text of an integer
-- ---------------------------------------------------------------------------

theorem isDigits_toDigits (n : Nat) : IsDigits (Nat.toDigits 10 n) where
  nonempty := Nat.toDigits_ne_nil
  digit _ := Nat.isDigit_of_mem_toDigits (by decide) (by decide)

theorem toList_intText (n : Int) : (intText n).toList =
    if n < 0 then '-' :: Nat.toDigits 10 n.natAbs else Nat.toDigits 10 n.natAbs := by
  unfold intText natText
  split <;> simp

theorem denotes_intText (n : Int) : Denotes (intText n).toList n := by
  have hdigits := isDigits_toDigits n.natAbs
  rw [toList_intText]
  split
  · have hminus := Denotes.minus hdigits
    rw [Nat.ofDigitChars_ten_toDigits] at hminus
    rwa [show -(n.natAbs : Int) = n by omega] at hminus
  · have hplain := Denotes.plain hdigits
    rw [Nat.ofDigitChars_ten_toDigits] at hplain
    rwa [show (n.natAbs : Int) = n by omega] at hplain

theorem mem_intText {n : Int} (h : c ∈ (intText n).toList) : c.isDigit = true ∨ c = '-' := by
  have hdigits := isDigits_toDigits n.natAbs
  rw [toList_intText] at h
  split at h
  · obtain rfl | h := List.mem_cons.mp h
    · exact .inr rfl
    · exact .inl (hdigits.digit c h)
  · exact .inl (hdigits.digit c h)

end Number

theorem Value.infer_eq_int {text : String} :
    infer text = .int i ↔ Number.readSigned text.toList = .ok i := by
  have hinferred := infer_inferred text
  generalize infer text = v at hinferred ⊢
  cases hinferred with
  | @truth b htext =>
    have hno := (ParamType.parseBool_no_number (htext ▸ ParamType.parseBool_toString b)).1
    exact iff_of_false (by simp) (hno i)
  | @int j hint => simp [hint]
  | float hno => exact iff_of_false (by simp) (hno i)
  | str hno => exact iff_of_false (by simp) (hno i)

theorem Value.infer_text (i : Int64) : infer (Value.int i).text = .int i :=
  infer_eq_int.mpr (Number.readSigned_eq_ok.mpr (Number.denotes_intText i.toInt))

-- ---------------------------------------------------------------------------
-- Lists of integers
-- ---------------------------------------------------------------------------

namespace Text

theorem isBlank_of_digit {c : Char} (h : c.isDigit = true ∨ c = '-') : isBlank c = false := by
  have hrange : 45 ≤ c.toNat ∧ c.toNat ≤ 57 := by
    obtain h | rfl := h
    · have hdigit : 48 ≤ c.toNat ∧ c.toNat ≤ 57 := Char.isDigit_iff_toNat.mp h
      omega
    · decide
  simp only [isBlank, blankRanges, List.any_cons, List.any_nil, Bool.or_false, Bool.or_eq_false_iff,
    Bool.and_eq_false_iff, decide_eq_false_iff_not]
  omega

theorem trim_ne_nil (h : c ∈ cs) (hc : isBlank c = false) : trim cs ≠ [] := by
  intro htrim
  have hrest : ∀ x ∈ cs.dropWhile isBlank, isBlank x = true := by
    simpa [trim, List.dropWhile_eq_nil_iff] using htrim
  have hblank : isBlank c = true := by
    rw [← List.takeWhile_append_dropWhile (p := isBlank) (l := cs)] at h
    obtain h | h := List.mem_append.mp h
    · exact List.mem_takeWhile_imp h
    · exact hrest c h
  exact absurd hblank (by simp [hc])

end Text

structure ListedInt where
  before : List Char
  value : Int64
  after : List Char
  before_blank : ∀ c ∈ before, Text.isBlank c = true
  after_blank : ∀ c ∈ after, Text.isBlank c = true

namespace ListedInt

def text (item : ListedInt) : List Char :=
  item.before ++ ((Value.int item.value).text.toList ++ item.after)

def join (items : List ListedInt) : String :=
  String.ofList (List.intercalate [','] (items.map text))

theorem firm (i : Int64) : Text.Firm (Value.int i).text.toList := by
  have hsolid : ∀ c ∈ (Value.int i).text.toList, Text.isBlank c = false := fun c hc =>
    Text.isBlank_of_digit (Number.mem_intText hc)
  refine ⟨?_, fun c hc => hsolid c (List.mem_of_head? hc),
    fun c hc => hsolid c (List.mem_of_getLast? hc)⟩
  rw [Value.text, Number.toList_intText]
  split
  · simp
  · exact Nat.toDigits_ne_nil

theorem trim_text (item : ListedInt) : Text.trim item.text = (Value.int item.value).text.toList :=
  (firm item.value).trim_padded item.before_blank item.after_blank

theorem comma_not_mem (item : ListedInt) : ',' ∉ item.text := by
  intro h
  have hcomma : Text.isBlank ',' = false := by decide
  obtain h | h | h : _ ∨ _ ∨ _ := by simpa [text] using h
  · simp [item.before_blank _ h] at hcomma
  · exact absurd (Number.mem_intText h) (by decide)
  · simp [item.after_blank _ h] at hcomma

theorem trim_join {items : List ListedInt} (h : items ≠ []) :
    Text.trim (join items).toList ≠ [] := by
  obtain ⟨item, items, rfl⟩ := List.exists_cons_of_ne_nil h
  obtain ⟨c, cs, htext⟩ := List.exists_cons_of_ne_nil (firm item.value).nonempty
  refine Text.trim_ne_nil (c := c) ?_ ((firm item.value).first c (by simp [htext]))
  have hc : c ∈ item.text := by simp [text, htext]
  rw [join, String.toList_ofList]
  cases items with
  | nil => simpa using hc
  | cons item' items => simp [List.intercalate_cons_cons, hc]

theorem parseList_join {items : List ListedInt} (h : items ≠ []) :
    ParamType.parseList (join items).toList = items.map fun item => .int item.value := by
  have hpieces : Text.pieces ',' (join items).toList = items.map text := by
    rw [join, String.toList_ofList]
    exact Text.pieces_intercalate (by simpa using h)
      (by simpa using fun item _ => item.comma_not_mem)
  rw [ParamType.parseList, if_neg (trim_join h), hpieces, List.map_map]
  refine List.map_congr_left fun item _ => ?_
  rw [Function.comp_apply, trim_text, String.ofList_toList, Value.infer_text]

end ListedInt

theorem ParamType.parse_actor_text {i : Int64} (h : 0 ≤ i.toInt) (k : Nat) :
    actor.parse (String.ofList (List.replicate k '#') ++ (Value.int i).text) =
      .ok (.actor (UInt64.ofNat i.toInt.toNat)) := by
  have hdigits := Number.isDigits_toDigits i.toInt.toNat
  have htext : (Value.int i).text.toList = Nat.toDigits 10 i.toInt.toNat := by
    rw [Value.text, Number.toList_intText, if_neg (by omega),
      show i.toInt.natAbs = i.toInt.toNat by omega]
  have hdrop : (String.ofList (List.replicate k '#') ++ (Value.int i).text).toList.dropWhile
      (· = '#') = Nat.toDigits 10 i.toInt.toNat := by
    rw [String.toList_append, String.toList_ofList, htext,
      List.dropWhile_append_of_pos (by simp [List.mem_replicate])]
    obtain ⟨c, cs, hcs⟩ := List.exists_cons_of_ne_nil hdigits.nonempty
    rw [hcs] at hdigits ⊢
    simp [hdigits.head_ne.2.2]
  have hread := Number.readUnsigned_of_isDigits hdigits (by
    have := Number.toInt_bounds i
    rw [Nat.ofDigitChars_ten_toDigits]
    omega)
  rw [Nat.ofDigitChars_ten_toDigits] at hread
  rw [parse, hdrop, hread]

/-- Integers are read exactly from their texts, alone, as actors and in lists. -/
theorem integer_texts_exact :
    (∀ (text : String) (n : Int), (∃ i, Value.infer text = .int i ∧ i.toInt = n) ↔
      Number.Denotes text.toList n ∧ -0x8000000000000000 ≤ n ∧ n < 0x8000000000000000) ∧
    (∀ i : Int64, Value.infer (Value.int i).text = .int i ∧
      ParamType.int.parse (Value.int i).text = .ok (.int i)) ∧
    (∀ (i : Int64) (k : Nat), 0 ≤ i.toInt →
      ParamType.actor.parse (String.ofList (List.replicate k '#') ++ (Value.int i).text) =
        .ok (.actor (UInt64.ofNat i.toInt.toNat))) ∧
    (∀ items : List ListedInt, items ≠ [] →
      ParamType.list.parse (ListedInt.join items) =
        .ok (.list (items.map fun item => .int item.value))) := by
  refine ⟨fun text n => ⟨?_, ?_⟩, fun i => ⟨Value.infer_text i, ?_⟩,
    fun i k h => ParamType.parse_actor_text h k, fun items h => ?_⟩
  · rintro ⟨i, hi, rfl⟩
    exact ⟨Number.readSigned_eq_ok.mp (Value.infer_eq_int.mp hi), Number.toInt_bounds i⟩
  · rintro ⟨hdenotes, hlow, hhigh⟩
    have hi := (Number.ofInt_eq_iff hlow hhigh).mp rfl
    refine ⟨Int64.ofInt n, Value.infer_eq_int.mpr (Number.readSigned_eq_ok.mpr ?_), hi⟩
    rwa [hi]
  · exact ParamType.parse_int_ok.mpr
      ⟨i, Number.readSigned_eq_ok.mpr (Number.denotes_intText i.toInt), rfl⟩
  · rw [ParamType.parse, ListedInt.parseList_join h]

def extremeInts : List ListedInt :=
  [⟨[' '], Int64.minValue, ['\t'], List.all_eq_true.mp rfl, List.all_eq_true.mp rfl⟩,
   ⟨[], Int64.maxValue, ['\n', ' '], List.all_eq_true.mp rfl, List.all_eq_true.mp rfl⟩]

theorem integer_texts_exact_extremes : 0 ≤ Int64.maxValue.toInt ∧
    ParamType.actor.parse "##9223372036854775807" = .ok (.actor 9223372036854775807) ∧
    extremeInts ≠ [] ∧
    ParamType.list.parse " -9223372036854775808\t,9223372036854775807\n " =
      .ok (.list [.int Int64.minValue, .int Int64.maxValue]) := by
  have hnonneg : 0 ≤ Int64.maxValue.toInt := by decide
  have hne : extremeInts ≠ [] := by simp [extremeInts]
  have hactor : String.ofList (List.replicate 2 '#') ++ (Value.int Int64.maxValue).text =
      "##9223372036854775807" := by decide +kernel
  have hlist : ListedInt.join extremeInts =
      " -9223372036854775808\t,9223372036854775807\n " := by decide +kernel
  obtain ⟨-, -, hactors, hlists⟩ := integer_texts_exact
  exact ⟨hnonneg, hactor ▸ hactors Int64.maxValue 2 hnonneg, hne, hlist ▸ hlists _ hne⟩

end Playbook
