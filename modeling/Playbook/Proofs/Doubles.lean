import Mathlib
import Playbook.Value

/-!
# Integers as doubles

A double has a mantissa of 53 bits and an exponent. An integer of more bits is cut to its first 53
and perhaps carried over to the next mantissa, so that its exponent is positive, while a shorter one
is kept as it is, with zeros behind it (`Number.Rounds`). Therefore an integer below `2 ^ 53` in
magnitude shares its double with no other integer (`Number.ofInt_inj`).
-/

namespace Playbook.Number

open Float.Model (Format UnpackedFloat totalExponent)
open Float.Model.UnpackedFloat (Sign ExtendedMantissa packComponents shiftToTargetExponent
  roundWithAccuracy)

-- ---------------------------------------------------------------------------
-- Mantissas
-- ---------------------------------------------------------------------------

variable {m n k : Nat} {e f : Int} {s : Sign} {em : ExtendedMantissa}

theorem ne_zero_of_log2 (h : 52 ≤ m.log2) : m ≠ 0 := by
  rintro rfl
  simp at h

theorem pos_of_log2 (h : m.log2 = 52) : 0 < m := Nat.pos_of_ne_zero (ne_zero_of_log2 h.ge)

theorem log2_mul_pow (h : m ≠ 0) (k : Nat) : (m * 2 ^ k).log2 = m.log2 + k := by
  induction k with
  | zero => simp
  | succ k ih =>
    have hne : m * 2 ^ k ≠ 0 := Nat.mul_ne_zero h (Nat.ne_of_gt (Nat.two_pow_pos k))
    rw [Nat.pow_succ', Nat.mul_left_comm, Nat.log2_two_mul hne, ih, Nat.add_assoc]

theorem log2_div_pow (h : 52 ≤ n.log2) : (n / 2 ^ (n.log2 - 52)).log2 = 52 := by
  have hlow : 2 ^ 52 * 2 ^ (n.log2 - 52) ≤ n := by
    rw [← Nat.pow_add, Nat.add_sub_cancel' h]
    exact Nat.log2_self_le (ne_zero_of_log2 h)
  have hhigh : n < 2 ^ 53 * 2 ^ (n.log2 - 52) := by
    rw [← Nat.pow_add, show 53 + (n.log2 - 52) = n.log2 + 1 by omega]
    exact Nat.lt_log2_self
  have hpos := Nat.two_pow_pos (n.log2 - 52)
  have hdiv : 2 ^ 52 ≤ n / 2 ^ (n.log2 - 52) := (Nat.le_div_iff_mul_le hpos).mpr hlow
  exact (Nat.log2_eq_iff (by omega)).mpr ⟨hdiv, (Nat.div_lt_iff_lt_mul hpos).mpr hhigh⟩

theorem mantissa_shift (em : ExtendedMantissa) (k : Nat) :
    (em >>> k).mantissa = em.mantissa / 2 ^ k := by
  induction k with
  | zero => simp [HShiftRight.hShiftRight, Nat.repeat]
  | succ k ih =>
    change (em >>> k).mantissa / 2 = _
    rw [ih, Nat.div_div_eq_div_mul, Nat.pow_succ]

theorem shift_exact (m k : Nat) :
    (ExtendedMantissa.mk (m * 2 ^ k) false false) >>> k = ⟨m, false, false⟩ := by
  induction k generalizing m with
  | zero => simp [HShiftRight.hShiftRight, Nat.repeat]
  | succ k ih =>
    change ((ExtendedMantissa.mk (m * 2 ^ (k + 1)) false false) >>> k).shiftRightOne = _
    rw [Nat.pow_succ', ← Nat.mul_assoc, ih]
    simp [ExtendedMantissa.shiftRightOne]

theorem roundedMantissa_cases (em : ExtendedMantissa) :
    em.roundedMantissa = em.mantissa ∨ em.roundedMantissa = em.mantissa + 1 := by
  rcases em with ⟨m, _ | _, _ | _⟩
  · exact .inl rfl
  · exact .inl rfl
  · have hparity : m % 2 = 0 ∨ m % 2 = 1 := by omega
    exact hparity.imp (congrArg (m + ·)) (congrArg (m + ·))
  · exact .inr rfl

-- ---------------------------------------------------------------------------
-- Rounding
-- ---------------------------------------------------------------------------

theorem targetExponent_eq (t : Int) :
    Format.binary64.targetExponent t = max (t - 53) (-1074) := rfl

theorem shiftToTargetExponent_eq (hn : 52 ≤ n.log2) (he : -1074 ≤ n.log2 + e - 52) :
    shiftToTargetExponent Format.binary64 n e .exact =
      (ExtendedMantissa.mk n false false >>> (n.log2 - 52), n.log2 + e - 52) := by
  have hshift : (Format.binary64.targetExponent (totalExponent n e) - e).toNat = n.log2 - 52 := by
    rw [targetExponent_eq, totalExponent]
    omega
  have hexponent : e + ((n.log2 - 52 : Nat) : Int) = n.log2 + e - 52 := by omega
  simp only [shiftToTargetExponent, UnpackedFloat.shiftToExponent, hshift, hexponent,
    ExtendedMantissa.ofMantissaAndAccuracy]

theorem shiftToTargetExponent_exact (h : m.log2 = 52) (he : -1074 ≤ e + k) :
    shiftToTargetExponent Format.binary64 (m * 2 ^ k) e .exact = (⟨m, false, false⟩, e + k) := by
  have hlog : (m * 2 ^ k).log2 = 52 + k := by rw [log2_mul_pow (ne_zero_of_log2 h.ge), h]
  rw [shiftToTargetExponent_eq (by omega) (by omega), hlog, Nat.add_sub_cancel_left, shift_exact]
  congr 1
  omega

/-- Rounding is one shift to 53 bits, and another one if the mantissa was carried over. -/
theorem roundWithAccuracy_eq (hfirst : shiftToTargetExponent Format.binary64 n e .exact = (em, f))
    (h : m.log2 = 52) (hem : em.roundedMantissa = m * 2 ^ k) (hf : -1074 ≤ f + k) :
    roundWithAccuracy Format.binary64 s n e .exact = .finite s m (f + k) (pos_of_log2 h) := by
  have hsecond := shiftToTargetExponent_exact h hf
  rw [← hem] at hsecond
  simp only [roundWithAccuracy, hfirst, hsecond]
  rw [dif_neg (ne_zero_of_log2 h.ge)]

theorem roundWithAccuracy_exact (h : m.log2 = 52) (he : -1074 ≤ e + k) :
    roundWithAccuracy Format.binary64 s (m * 2 ^ k) e .exact =
      .finite s m (e + k) (pos_of_log2 h) := by
  have hround := roundWithAccuracy_eq (s := s) (k := 0) (shiftToTargetExponent_exact h he) h
    (by rw [Nat.pow_zero, Nat.mul_one]; rfl) (by simpa using he)
  simpa using hround

theorem roundWithAccuracy_coarse (hn : 52 ≤ n.log2) (he : -1074 ≤ n.log2 + e - 52) :
    ∃ m f, ∃ h : m.log2 = 52, roundWithAccuracy Format.binary64 s n e .exact =
      .finite s m f (pos_of_log2 h) ∧ n.log2 + e - 52 ≤ f ∧ f ≤ n.log2 + e - 51 := by
  have hfirst := shiftToTargetExponent_eq hn he
  generalize hem : ExtendedMantissa.mk n false false >>> (n.log2 - 52) = em at hfirst
  have hmantissa : em.mantissa.log2 = 52 := by
    rw [← hem, mantissa_shift]
    exact log2_div_pow hn
  by_cases hlog : em.roundedMantissa.log2 = 52
  · have hround := roundWithAccuracy_eq (s := s) (k := 0) hfirst hlog (by simp) (by simpa using he)
    exact ⟨_, _, hlog, hround, by omega, by omega⟩
  · -- only one more than the highest mantissa has another number of bits
    have hbounds := (Nat.log2_eq_iff (ne_zero_of_log2 hmantissa.ge)).mp hmantissa
    have hcarry : em.roundedMantissa = 2 ^ 52 * 2 ^ 1 := by
      obtain h | h := roundedMantissa_cases em
      · exact absurd (h ▸ hmantissa) hlog
      · rcases Nat.lt_or_ge em.roundedMantissa (2 ^ 53) with hlt | hge
        · exact absurd ((Nat.log2_eq_iff (by omega)).mpr (by omega)) hlog
        · omega
    have hround := roundWithAccuracy_eq (s := s) hfirst Nat.log2_two_pow hcarry (by omega)
    exact ⟨_, _, Nat.log2_two_pow, hround, by omega, by omega⟩

theorem round_small (hpos : 0 < n) (h : n < 2 ^ 53) :
    ∃ hlog : (n * 2 ^ (52 - n.log2)).log2 = 52, UnpackedFloat.round Format.binary64 s n 0 =
      .finite s (n * 2 ^ (52 - n.log2)) (-(52 - n.log2 : Nat)) (pos_of_log2 hlog) := by
  have hlog2 : n.log2 < 53 := (Nat.log2_lt hpos.ne').mpr h
  have hlog : (n * 2 ^ (52 - n.log2)).log2 = 52 := by
    rw [log2_mul_pow hpos.ne']
    omega
  have hshift : (0 - Format.binary64.targetExponent (totalExponent n 0)).toNat = 52 - n.log2 := by
    rw [targetExponent_eq, totalExponent]
    omega
  have hround := roundWithAccuracy_exact (s := s) (k := 0) (e := -(52 - n.log2 : Nat)) hlog
    (by omega)
  refine ⟨hlog, ?_⟩
  simp only [UnpackedFloat.round, UnpackedFloat.decreaseExponent, hshift, Nat.shiftLeft_eq]
  simpa using hround

-- ---------------------------------------------------------------------------
-- Bits
-- ---------------------------------------------------------------------------

theorem toNat_mantissa (h : m.log2 = 52) : (1#1 ++ BitVec.ofNat 52 m).toNat = m := by
  have hbounds := (Nat.log2_eq_iff (ne_zero_of_log2 h.ge)).mp h
  rw [BitVec.toNat_append, ← Nat.shiftLeft_add_eq_or_of_lt (BitVec.isLt _), BitVec.toNat_ofNat]
  simp only [BitVec.toNat_ofNat, Nat.shiftLeft_eq]
  omega

theorem unpack_pack (h : m.log2 = 52) (hlow : -1074 ≤ e) (hhigh : e ≤ 971) :
    (Float.Model.pack (.finite s m e (pos_of_log2 h))).unpack = .finite s m e (pos_of_log2 h) := by
  have hbias : (Format.binary64.exponentBias : Int) = 1023 := rfl
  have hbiased : (e + (Format.binary64.exponentBias : Int) + (52 : Nat)).toNat =
      (e + 1075).toNat := by
    rw [hbias, Int.add_assoc]
    rfl
  have hpack : UnpackedFloat.pack Format.binary64 (.finite s m e (pos_of_log2 h)) =
      packComponents Format.binary64 s (BitVec.ofNat 11 (e + 1075).toNat) (BitVec.ofNat 52 m) := by
    simp only [UnpackedFloat.pack, hbiased]
    rw [if_neg (by omega), if_pos (by rw [h]; rfl)]
  have hexponent : (BitVec.ofNat 11 (e + 1075).toNat).toNat = (e + 1075).toNat := by
    rw [BitVec.toNat_ofNat, Nat.mod_eq_of_lt (by omega)]
  have hdiffers {bits : BitVec 11} (hbits : (e + 1075).toNat ≠ bits.toNat) :
      BitVec.ofNat 11 (e + 1075).toNat ≠ bits := by
    rintro rfl
    exact hbits hexponent.symm
  -- neither an infinity nor a number with a shorter mantissa has such an exponent
  have hfinite := hdiffers (show (e + 1075).toNat ≠ (-1#11).toNat by simp; omega)
  have hnormal := hdiffers (show (e + 1075).toNat ≠ (0#11).toNat by simp; omega)
  change UnpackedFloat.unpack Format.binary64 (UnpackedFloat.pack Format.binary64 _) = _
  rw [hpack]
  simp only [UnpackedFloat.unpack, UnpackedFloat.unpackExponent_packComponents,
    UnpackedFloat.unpackMantissa_packComponents, UnpackedFloat.unpackSign_packComponents,
    Sign.ofBitVec_toBitVec, if_neg hfinite, if_neg hnormal, toNat_mantissa h, hexponent]
  congr 1
  rw [hbias]
  omega

-- ---------------------------------------------------------------------------
-- Integers
-- ---------------------------------------------------------------------------

/-- What a number of at most 64 bits is rounded to. -/
structure Rounds (n m : Nat) (e : Int) : Prop where
  full : m.log2 = 52
  low : -1074 ≤ e
  high : e ≤ 971
  exact : n < 2 ^ 53 → e ≤ 0 ∧ m = n * 2 ^ (-e).toNat
  coarse : 2 ^ 53 ≤ n → 0 < e

theorem mul_unit (h : m.log2 = 52) (he : -1074 ≤ e) :
    UnpackedFloat.mul Format.binary64 (.finite .positive m e (pos_of_log2 h))
      (.finite .positive (2 ^ 52) (-52) (by decide)) = .finite .positive m e (pos_of_log2 h) := by
  have hround := roundWithAccuracy_exact (s := .positive) (k := 52) (e := e + -52) h (by omega)
  rw [show e + -52 + (52 : Nat) = e by omega] at hround
  exact hround

theorem unpack_unit : Float.exactlyRepresentablePowersOfTen[0].toModel.unpack =
    .finite .positive (2 ^ 52) (-52) (by decide) := rfl

theorem ofNat_small (h : n < 2 ^ 53) :
    Float.ofNat n = n.toUInt64.toFloat * Float.exactlyRepresentablePowersOfTen[0] :=
  dif_pos ⟨h, by decide⟩

theorem unpack_toFloat (hpos : 0 < n) (h : n < 2 ^ 53) :
    n.toUInt64.toFloat.toModel.unpack =
      (Float.Model.pack (UnpackedFloat.round Format.binary64 .positive n 0)).unpack := by
  have hnat : n.toUInt64.toNat = n := UInt64.toNat_ofNat_of_lt' (Nat.lt_trans h (by decide))
  have hcompare : compare (n : Int) 0 = .gt := by
    rw [Int.compare_eq_gt]
    omega
  change (Float.Model.pack (UnpackedFloat.ofNat Format.binary64 n.toUInt64.toNat)).unpack = _
  simp [hnat, UnpackedFloat.ofNat, UnpackedFloat.ofInt, UnpackedFloat.normalize, hcompare]

theorem unpack_ofNat_small (hpos : 0 < n) (h : n < 2 ^ 53) : ∃ m e, ∃ hr : Rounds n m e,
    (Float.ofNat n).toModel.unpack = .finite .positive m e (pos_of_log2 hr.full) := by
  obtain ⟨hlog, hround⟩ := round_small (s := .positive) hpos h
  refine ⟨n * 2 ^ (52 - n.log2), -(52 - n.log2 : Nat),
    ⟨hlog, by omega, by omega, fun _ => ⟨by omega, by simp⟩, fun hle => by omega⟩, ?_⟩
  rw [ofNat_small h]
  change (Float.Model.pack (UnpackedFloat.mul Format.binary64 n.toUInt64.toFloat.toModel.unpack
    Float.exactlyRepresentablePowersOfTen[0].toModel.unpack)).unpack = _
  rw [unpack_toFloat hpos h, hround, unpack_pack hlog (by omega) (by omega), unpack_unit,
    mul_unit hlog (by omega), unpack_pack hlog (by omega) (by omega)]

theorem ofNat_large (h : 2 ^ 53 ≤ n) : (Float.ofNat n).toModel =
    .pack (roundWithAccuracy Format.binary64 .positive (n * 2 ^ 53) (-53) .exact) := by
  have hofNat : Float.ofNat n = .ofModel (Float.Model.ofScientific n 0) := dif_neg (by omega)
  have hlog : ¬ (0 : Int) < -(2 ^ Format.binary64.exponentBits + n.log2) :=
    not_lt.mpr (neg_nonpos.mpr (by positivity))
  have hscientific : UnpackedFloat.ofScientific Format.binary64 n 0 =
      roundWithAccuracy Format.binary64 .positive (n * 2 ^ 53) (-53) .exact := by
    unfold UnpackedFloat.ofScientific
    rw [dif_neg (by omega), if_neg (by decide), if_neg hlog, if_pos (by decide)]
    simp only [UnpackedFloat.mul, show Format.binary64.mantissaBits = 53 from rfl, Nat.shiftLeft_eq,
      Int.toNat_zero, Nat.pow_zero, Nat.mul_one]
    rfl
  rw [hofNat]
  exact congrArg Float.Model.pack hscientific

theorem unpack_ofNat_large (h : 2 ^ 53 ≤ n) (hn : n < 2 ^ 64) : ∃ m e, ∃ hr : Rounds n m e,
    (Float.ofNat n).toModel.unpack = .finite .positive m e (pos_of_log2 hr.full) := by
  have hn0 : n ≠ 0 := by omega
  have hlow : 53 ≤ n.log2 := (Nat.le_log2 hn0).mpr h
  have hhigh : n.log2 < 64 := (Nat.log2_lt hn0).mpr hn
  have hlog := log2_mul_pow hn0 53
  obtain ⟨m, e, hm, hround, hbelow, habove⟩ := roundWithAccuracy_coarse (s := .positive) (e := -53)
    (n := n * 2 ^ 53) (by omega) (by omega)
  refine ⟨m, e, ⟨hm, by omega, by omega, fun hlt => by omega, fun _ => by omega⟩, ?_⟩
  rw [ofNat_large h, hround, unpack_pack hm (by omega) (by omega)]

theorem unpack_ofNat (hpos : 0 < n) (hn : n < 2 ^ 64) : ∃ m e, ∃ hr : Rounds n m e,
    (Float.ofNat n).toModel.unpack = .finite .positive m e (pos_of_log2 hr.full) := by
  rcases Nat.lt_or_ge n (2 ^ 53) with h | h
  · exact unpack_ofNat_small hpos h
  · exact unpack_ofNat_large h hn

def signOf (i : Int) : Sign := if i < 0 then .negative else .positive

theorem unpack_ofInt {i : Int} (hi : i ≠ 0) (h : i.natAbs < 2 ^ 64) :
    ∃ m e, ∃ hr : Rounds i.natAbs m e,
      (Float.ofInt i).toModel.unpack = .finite (signOf i) m e (pos_of_log2 hr.full) := by
  obtain ⟨m, e, hr, hunpack⟩ := unpack_ofNat (by omega) h
  refine ⟨m, e, hr, ?_⟩
  cases i with
  | ofNat n => exact hunpack
  | negSucc n =>
    change (Float.Model.pack (Float.ofNat (Int.negSucc n).natAbs).toModel.unpack.neg).unpack = _
    rw [hunpack]
    change (Float.Model.pack (.finite .negative m e _)).unpack = _
    rw [unpack_pack hr.full hr.low hr.high]
    simp [signOf, Int.negSucc_lt_zero]

theorem unpack_zero : (Float.ofInt 0).toModel.unpack = .zero .positive := rfl

theorem unpack_of_eq {x y : Float} (h : (x == y) = true) :
    x.toModel.unpack = y.toModel.unpack ∨
      ∃ s t, x.toModel.unpack = .zero s ∧ y.toModel.unpack = .zero t := by
  obtain ⟨-, -, heq | ⟨hx, hy⟩ | ⟨hx, hy⟩⟩ :=
    (UnpackedFloat.beq_iff_ne_notANumber_and_eq x.toModel.unpack y.toModel.unpack).mp h
  · exact .inl heq
  · exact .inr ⟨_, _, hx, hy⟩
  · exact .inr ⟨_, _, hx, hy⟩

/-- An integer below `2 ^ 53` in magnitude shares its double with no other integer. -/
theorem ofInt_inj {i j : Int} (hi : i.natAbs < 2 ^ 53) (hj : j.natAbs < 2 ^ 64)
    (h : (Float.ofInt i == Float.ofInt j) = true) : i = j := by
  have hunpack := unpack_of_eq h
  by_cases hi0 : i = 0
  · by_cases hj0 : j = 0
    · rw [hi0, hj0]
    · obtain ⟨m, e, hr, hfinite⟩ := unpack_ofInt hj0 hj
      simp [hi0, unpack_zero, hfinite] at hunpack
  · obtain ⟨m, e, hr, hfinite⟩ := unpack_ofInt hi0 (by omega)
    by_cases hj0 : j = 0
    · simp [hj0, unpack_zero, hfinite] at hunpack
    · obtain ⟨n, f, hr', hfinite'⟩ := unpack_ofInt hj0 hj
      obtain ⟨hsign, rfl, rfl⟩ : signOf i = signOf j ∧ m = n ∧ e = f := by
        simpa [hfinite, hfinite'] using hunpack
      obtain ⟨he, hm⟩ := hr.exact hi
      have hsmall : j.natAbs < 2 ^ 53 := by
        by_contra hge
        have hpos := hr'.coarse (Nat.le_of_not_lt hge)
        omega
      have habs : i.natAbs = j.natAbs := by
        refine Nat.eq_of_mul_eq_mul_right (Nat.two_pow_pos (-e).toNat) ?_
        rw [← hm, (hr'.exact hsmall).2]
      unfold signOf at hsign
      split at hsign <;> split at hsign <;> first | omega | cases hsign

end Playbook.Number
