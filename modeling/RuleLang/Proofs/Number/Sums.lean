import RuleLang.Proofs.Number.Comparison
import RuleLang.Proofs.Number.Whole

/-!
# Exact sums of integers

An integer of at most 53 binary digits is rounded to itself from whatever scale it comes in, so that the
sum of two such integers is exact where it is small enough itself.

* `Number.round_exact`: rounding a natural number on any scale.
* `Number.ofInt_add_ofInt`: the sum of two integers.
* `Number.ofRatio_lt_ofInt_zero_iff`: what is below zero.
* `Number.toNat_toUInt32_ofRatio`: the conversion of a natural number to a word.
-/

namespace RuleLang.Number

open Float.Model (UnpackedFloat Format totalExponent)
open Float.Model.UnpackedFloat (Sign ExtendedMantissa)

variable {x y : Float} {negative : Bool} {n : Nat}

/-! ### Naturals in the logic -/

/-- The mantissa of a number other than zero is positive. -/
theorem mantissa_pos (hn : n ≠ 0) (k : Nat) : 0 < n * 2 ^ k :=
  Nat.mul_pos (Nat.pos_of_ne_zero hn) (Nat.two_pow_pos k)

/-- A natural number of at most 53 binary digits is taken apart to its mantissa, moved all the way up. -/
theorem unpack_ofRatio (negative : Bool) (hn : n ≠ 0) (h : n < 2 * fractionSpan) :
    (ofRatio negative n 1).toModel.unpack = .finite (signOf negative) (n * 2 ^ (52 - n.log2))
      ((n.log2 : Int) - 52) (mantissa_pos hn _) := by
  rw [unpack_eq, parts_ofRatio_one hn h, Parts.unpacked, dif_neg (mantissa_pos hn _).ne']

/-- Zero is taken apart to zero, with its sign. -/
theorem unpack_ofRatio_zero (negative : Bool) :
    (ofRatio negative 0 1).toModel.unpack = .zero (signOf negative) := by
  rw [unpack_eq, parts_ofRatio_zero, Parts.unpacked, dif_pos rfl]

/-- A double is packed as itself. -/
theorem ofModel_pack {u : UnpackedFloat} (h : u = x.toModel.unpack) : Float.ofModel (.pack u) = x := by
  have hbits : UnpackedFloat.pack Format.binary64 x.toModel.unpack = x.toModel.toBits.toBitVec :=
    UnpackedFloat.pack_unpack_of_valid x.toModel.valid
  refine Float.toBits_inj.mp ?_
  change UInt64.ofBitVec (UnpackedFloat.pack Format.binary64 u) = x.toModel.toBits
  rw [h, hbits]

/-! ### Shifting and rounding -/

/-- Shifting a mantissa divides it by a power of two. -/
theorem mantissa_shiftRight (em : ExtendedMantissa) (k : Nat) :
    (em >>> k).mantissa = em.mantissa / 2 ^ k := by
  induction k with
  | zero => exact (Nat.div_one _).symm
  | succ k ih =>
      change (em >>> k).mantissa / 2 = _
      rw [ih, Nat.div_div_eq_div_mul, Nat.pow_succ]

/-- Nothing is lost when zeros are shifted out. -/
theorem shiftRight_exact (m k : Nat) :
    (⟨m * 2 ^ k, false, false⟩ : ExtendedMantissa) >>> k = ⟨m, false, false⟩ := by
  induction k generalizing m with
  | zero => rw [Nat.pow_zero, Nat.mul_one]; rfl
  | succ k ih =>
      change ExtendedMantissa.shiftRightOne ((⟨m * 2 ^ (k + 1), false, false⟩ : ExtendedMantissa) >>> k) = _
      rw [Nat.pow_succ', ← Nat.mul_assoc, ih]
      simp [ExtendedMantissa.shiftRightOne]

/-- The exponent that rounding aims at. -/
theorem targetExponent_eq (e : Int) : Format.binary64.targetExponent e = max (e - 53) (-1074) := rfl

/-- A natural number that fits the mantissa is brought to its exponent from any finer scale. -/
theorem shiftToTargetExponent_exact (hn : n ≠ 0) (h : n < 2 * fractionSpan) (k : Nat) :
    UnpackedFloat.shiftToTargetExponent Format.binary64 (n * 2 ^ (52 - n.log2 + k))
        ((n.log2 : Int) - 52 - k) .exact =
      (⟨n * 2 ^ (52 - n.log2), false, false⟩, (n.log2 : Int) - 52) := by
  have hlog := log2_lt_of_lt h
  have htarget : Format.binary64.targetExponent
      (totalExponent (n * 2 ^ (52 - n.log2 + k)) ((n.log2 : Int) - 52 - k)) = (n.log2 : Int) - 52 := by
    rw [targetExponent_eq, totalExponent, log2_mul_two_pow hn]
    omega
  have hshift : ((n.log2 : Int) - 52 - ((n.log2 : Int) - 52 - k)).toNat = k := by omega
  rw [UnpackedFloat.shiftToTargetExponent, htarget]
  simp only [UnpackedFloat.shiftToExponent, hshift, ExtendedMantissa.ofMantissaAndAccuracy]
  rw [Nat.pow_add, ← Nat.mul_assoc, shiftRight_exact, Int.sub_add_cancel]

/-- Rounding keeps a natural number that fits the mantissa. -/
theorem roundWithAccuracy_exact (sign : Sign) (hn : n ≠ 0) (h : n < 2 * fractionSpan) (k : Nat) :
    UnpackedFloat.roundWithAccuracy Format.binary64 sign (n * 2 ^ (52 - n.log2 + k))
        ((n.log2 : Int) - 52 - k) .exact =
      .finite sign (n * 2 ^ (52 - n.log2)) ((n.log2 : Int) - 52) (mantissa_pos hn _) := by
  have hagain := shiftToTargetExponent_exact hn h 0
  rw [Nat.add_zero, Int.natCast_zero, Int.sub_zero] at hagain
  simp only [UnpackedFloat.roundWithAccuracy, shiftToTargetExponent_exact hn h,
    ExtendedMantissa.roundedMantissa, ExtendedMantissa.accuracy,
    UnpackedFloat.Accuracy.roundToNearestEven, hagain]
  rw [dif_neg (mantissa_pos hn _).ne']

/-- Rounding keeps a natural number that fits the mantissa, whatever scale it comes in. -/
theorem round_exact (sign : Sign) (hn : n ≠ 0) (h : n < 2 * fractionSpan) (k : Nat) :
    UnpackedFloat.round Format.binary64 sign (n * 2 ^ k) (-k) =
      .finite sign (n * 2 ^ (52 - n.log2)) ((n.log2 : Int) - 52) (mantissa_pos hn _) := by
  have hlog := log2_lt_of_lt h
  have htarget : Format.binary64.targetExponent (totalExponent (n * 2 ^ k) (-k)) =
      (n.log2 : Int) - 52 := by
    rw [targetExponent_eq, totalExponent, log2_mul_two_pow hn]
    omega
  -- The scale is refined to 53 digits first, if it is coarser; what it is finer by is shifted out.
  have hmantissa : n * 2 ^ k * 2 ^ (-(k : Int) - ((n.log2 : Int) - 52)).toNat =
      n * 2 ^ (52 - n.log2 + (k - (52 - n.log2))) := by
    rw [Nat.mul_assoc, ← Nat.pow_add]
    congr 2
    omega
  have hexponent : -(k : Int) - ((-(k : Int) - ((n.log2 : Int) - 52)).toNat : Int) =
      (n.log2 : Int) - 52 - ((k - (52 - n.log2) : Nat) : Int) := by omega
  rw [UnpackedFloat.round, htarget]
  simp only [UnpackedFloat.decreaseExponent, Nat.shiftLeft_eq, hmantissa, hexponent]
  exact roundWithAccuracy_exact sign hn h _

/-! ### Sums of integers -/

/-- An integer of at most 53 binary digits. -/
def IsSmall (i : Int) : Prop :=
  i.natAbs < 2 * fractionSpan

variable {i j : Int}

/-- The sign of an integer applied to its scaled magnitude is the scaled integer. -/
theorem signOf_apply (i : Int) (k : Nat) :
    (signOf (decide (i < 0))).apply ((i.natAbs * 2 ^ k : Nat) : Int) = i * 2 ^ k := by
  rw [Nat.cast_mul, Nat.cast_pow, Nat.cast_ofNat]
  by_cases hi : i < 0
  · rw [decide_eq_true hi]
    change -((i.natAbs : Int) * 2 ^ k) = i * 2 ^ k
    rw [← Int.neg_mul, show -(i.natAbs : Int) = i by omega]
  · rw [decide_eq_false hi]
    change (i.natAbs : Int) * 2 ^ k = i * 2 ^ k
    rw [show (i.natAbs : Int) = i by omega]

/-- Normalizing an integer that fits the mantissa, whatever scale it comes in. -/
theorem normalize_exact (hi : IsSmall i) (k : Nat) :
    UnpackedFloat.normalize Format.binary64 (i * 2 ^ k) (-k) .positive = (ofInt i).toModel.unpack := by
  have hpos : (0 : Int) < 2 ^ k := Int.pow_pos (by decide)
  rcases Int.lt_trichotomy i 0 with hneg | rfl | hpos'
  · have hlt : compare (i * 2 ^ k) 0 = .lt := compare_lt_iff_lt.mpr (Int.mul_neg_of_neg_of_pos hneg hpos)
    have habs : (-(i * 2 ^ k)).toNat = i.natAbs * 2 ^ k := by
      rw [← signOf_apply, decide_eq_true hneg]
      change (- -((i.natAbs * 2 ^ k : Nat) : Int)).toNat = _
      rw [Int.neg_neg, Int.toNat_natCast]
    have hsign : signOf (decide (i < 0)) = .negative := by rw [decide_eq_true hneg]; rfl
    rw [UnpackedFloat.normalize, hlt, ofInt, unpack_ofRatio _ (by omega) hi, hsign]
    simp only [habs]
    exact round_exact _ (by omega) hi k
  · have heq : compare ((0 : Int) * 2 ^ k) 0 = .eq := by rw [Int.zero_mul]; rfl
    rw [UnpackedFloat.normalize, heq, ofInt]
    exact (unpack_ofRatio_zero false).symm
  · have hgt : compare (i * 2 ^ k) 0 = .gt := compare_gt_iff_gt.mpr (Int.mul_pos hpos' hpos)
    have habs : (i * 2 ^ k).toNat = i.natAbs * 2 ^ k := by
      rw [← signOf_apply, decide_eq_false (by omega)]
      exact Int.toNat_natCast _
    have hsign : signOf (decide (i < 0)) = .positive := by rw [decide_eq_false (by omega)]; rfl
    rw [UnpackedFloat.normalize, hgt, ofInt, unpack_ofRatio _ (by omega) hi, hsign]
    simp only [habs]
    exact round_exact _ (by omega) hi k

/-- An integer of at most 53 binary digits is taken apart to its sign and its mantissa. -/
theorem unpack_ofInt (hi : IsSmall i) (hne : i ≠ 0) :
    (ofInt i).toModel.unpack = .finite (signOf (decide (i < 0))) (i.natAbs * 2 ^ (52 - i.natAbs.log2))
      ((i.natAbs.log2 : Int) - 52) (mantissa_pos (Int.natAbs_ne_zero.mpr hne) _) :=
  unpack_ofRatio _ (Int.natAbs_ne_zero.mpr hne) hi

/-- The integer zero is taken apart to zero. -/
theorem unpack_ofInt_zero : (ofInt 0).toModel.unpack = .zero .positive :=
  unpack_ofRatio_zero false

/-- The sum of two integers that fit the mantissa is exact, if it fits too. -/
theorem ofInt_add_ofInt (hi : IsSmall i) (hj : IsSmall j) (hsum : IsSmall (i + j)) :
    ofInt i + ofInt j = ofInt (i + j) := by
  change Float.ofModel (.pack (UnpackedFloat.add Format.binary64 (ofInt i).toModel.unpack
    (ofInt j).toModel.unpack)) = _
  refine ofModel_pack ?_
  by_cases hi0 : i = 0
  · rw [hi0, Int.zero_add, unpack_ofInt_zero]
    by_cases hj0 : j = 0
    · rw [hj0, unpack_ofInt_zero]
      rfl
    · rw [unpack_ofInt hj hj0]
      rfl
  · by_cases hj0 : j = 0
    · rw [hj0, Int.add_zero, unpack_ofInt_zero, unpack_ofInt hi hi0]
      rfl
    · have hlogi := log2_lt_of_lt hi
      have hlogj := log2_lt_of_lt hj
      -- Both mantissas are brought to the finer of the two scales, where they are added.
      obtain ⟨k, hk⟩ : ∃ k : Nat, min ((i.natAbs.log2 : Int) - 52) ((j.natAbs.log2 : Int) - 52) = -k :=
        ⟨(-min ((i.natAbs.log2 : Int) - 52) ((j.natAbs.log2 : Int) - 52)).toNat, by omega⟩
      have hscale {l : Nat} (hl : l < 53) (hle : -(k : Int) ≤ (l : Int) - 52) (m : Nat) :
          m * 2 ^ (52 - l) * 2 ^ (((l : Int) - 52) - -(k : Int)).toNat = m * 2 ^ k := by
        rw [Nat.mul_assoc, ← Nat.pow_add]
        congr 2
        omega
      rw [unpack_ofInt hi hi0, unpack_ofInt hj hj0]
      simp only [UnpackedFloat.add, UnpackedFloat.decreaseExponent, Nat.shiftLeft_eq, hk,
        hscale hlogi (by omega), hscale hlogj (by omega), signOf_apply, ← Int.add_mul]
      exact normalize_exact hsum k

/-! ### Signs and words -/

/-- Below zero are the negative numbers but negative zero. -/
theorem ofRatio_lt_ofInt_zero_iff (negative : Bool) (h : n < 2 * fractionSpan) :
    ofRatio negative n 1 < ofInt 0 ↔ negative = true ∧ n ≠ 0 := by
  rw [lt_iff, unpack_ofInt_zero]
  by_cases hn : n = 0
  · rw [hn, unpack_ofRatio_zero]
    simp [UnpackedFloat.compare]
  · rw [unpack_ofRatio negative hn h]
    cases negative <;> simp [UnpackedFloat.compare, signOf, hn]

/-- The number of words is positive. -/
theorem abs_wordSpan : wordSpan.abs = wordSpan := by
  refine ofModel_pack ?_
  rw [unpack_eq, parts_wordSpan]
  rfl

/-- The word of a natural number, also of a negative zero. -/
theorem toNat_toUInt32_ofRatio (h : n < 2 ^ 32) (hsign : negative = true → n = 0) :
    (ofRatio negative n 1).toUInt32.toNat = n := by
  change (UInt32.ofNatClamp
    ((ofRatio negative n 1).toModel.unpack.toInt 0 (UInt32.size - 1)).toNat).toNat = n
  have hspan : 2 ^ 32 < 2 * fractionSpan := by decide
  by_cases hn : n = 0
  · rw [hn, unpack_ofRatio_zero]
    rfl
  · have hpositive : negative = false := Bool.eq_false_iff.mpr (mt hsign hn)
    have hlog := log2_lt_of_lt (h.trans hspan)
    have hint : (ofRatio negative n 1).toModel.unpack.toInt 0 (UInt32.size - 1) = n := by
      rw [unpack_ofRatio negative hn (h.trans hspan), hpositive]
      have hzero : ((n.log2 : Int) - 52).toNat = 0 := by omega
      have hshift : (0 - ((n.log2 : Int) - 52)).toNat = 52 - n.log2 := by omega
      simp only [UnpackedFloat.toInt, UnpackedFloat.roundToInt, UnpackedFloat.decreaseExponent, hzero,
        UnpackedFloat.shiftToExponent, Int.natCast_zero, Int.sub_zero, hshift, mantissa_shiftRight,
        ExtendedMantissa.ofMantissaAndAccuracy, Nat.shiftLeft_zero,
        Nat.mul_div_cancel _ (Nat.two_pow_pos _)]
      rfl
    rw [hint, Int.toNat_natCast, UInt32.ofNatClamp, dif_pos (show n < UInt32.size from h)]
    rfl

end RuleLang.Number
