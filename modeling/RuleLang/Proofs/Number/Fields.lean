import RuleLang.Proofs.Number.Integers

/-!
# The parts of a double in the logic

The logic has its own account of a double, by which the four operations, the order and the conversions to
words are computed. It takes a double apart as `Number.parts` does.

* `Number.Parts.unpacked`: parts as the logic has them.
* `Number.unpack_eq`: taking a double apart, in the logic and here.
* `Number.toNat_toBits_ofBits`: the bits of a double that is built from a sign and a magnitude.
* `Number.parts_of_toNat_toBits`: the parts of a double from its bits.
-/

namespace RuleLang.Number

open Float.Model (UnpackedFloat Format)
open Float.Model.UnpackedFloat (Sign)

variable {x : Float} {d : Dyadic} {negative : Bool} {n : Nat}

/-! ### The fields of the bits -/

/-- The mantissa is the low part of the bits. -/
theorem toNat_unpackMantissa (b : BitVec 64) :
    (@UnpackedFloat.unpackMantissa Format.binary64 b).toNat = b.toNat % fractionSpan := by
  rw [UnpackedFloat.unpackMantissa_def, BitVec.extractLsb'_toNat, Nat.shiftRight_zero]
  rfl

/-- The exponent is the part of the bits above the mantissa. -/
theorem toNat_unpackExponent (b : BitVec 64) :
    (@UnpackedFloat.unpackExponent Format.binary64 b).toNat =
      b.toNat / fractionSpan % 2048 := by
  rw [UnpackedFloat.unpackExponent_def, BitVec.extractLsb'_toNat, Nat.shiftRight_eq_div_pow]
  rfl

/-- The sign is the highest bit. -/
theorem toNat_unpackSign (b : BitVec 64) :
    (@UnpackedFloat.unpackSign Format.binary64 b).toNat = b.toNat / 2 ^ 63 % 2 := by
  rw [UnpackedFloat.unpackSign_def, BitVec.extractLsb'_toNat, Nat.shiftRight_eq_div_pow]
  rfl

/-- The sign as the logic has it. -/
def signOf (negative : Bool) : Sign :=
  if negative then .negative else .positive

/-- The parts of a double as the logic has them: there is no zero among the finite ones. -/
def Parts.unpacked : Parts → UnpackedFloat
  | .nan => .notANumber
  | .infinite negative => .infinity (signOf negative)
  | .finite d =>
    if h : d.mantissa = 0 then .zero (signOf d.negative)
    else .finite (signOf d.negative) d.mantissa d.exponent (Nat.pos_of_ne_zero h)

/-- A double is negative when its highest bit is set. -/
theorem ofBitVec_unpackSign (b : BitVec 64) :
    Sign.ofBitVec (@UnpackedFloat.unpackSign Format.binary64 b) =
      signOf (decide (Nat.pow 2 63 ≤ b.toNat)) := by
  have hsign := toNat_unpackSign b
  have hlt : b.toNat < 2 ^ 64 := b.isLt
  rw [Nat.pow_eq]
  by_cases h : 2 ^ 63 ≤ b.toNat
  · have hone : @UnpackedFloat.unpackSign Format.binary64 b = 1#1 :=
      BitVec.eq_of_toNat_eq (by rw [hsign, BitVec.toNat_ofNat]; omega)
    rw [hone, decide_eq_true h]
    rfl
  · have hzero : @UnpackedFloat.unpackSign Format.binary64 b = 0#1 :=
      BitVec.eq_of_toNat_eq (by rw [hsign, BitVec.toNat_ofNat]; omega)
    rw [hzero, decide_eq_false h]
    rfl

/-- The hidden leading digit of a mantissa in front of its fraction. -/
theorem toNat_leading_append (f : BitVec 52) : (1#1 ++ f).toNat = fractionSpan + f.toNat := by
  have hor := Nat.two_pow_add_eq_or_of_lt f.isLt 1
  rw [Nat.mul_one] at hor
  rw [BitVec.toNat_append, Nat.shiftLeft_eq, BitVec.toNat_ofNat, fractionSpan, Nat.pow_eq, hor]

/-- The logic takes a double apart as `parts` does. -/
theorem unpack_eq (x : Float) : x.toModel.unpack = (parts x).unpacked := by
  have hmantissa : (@UnpackedFloat.unpackMantissa Format.binary64 x.toBits.toBitVec).toNat =
      x.toBits.toNat % fractionSpan := toNat_unpackMantissa _
  have hexponent : (@UnpackedFloat.unpackExponent Format.binary64 x.toBits.toBitVec).toNat =
      x.toBits.toNat / fractionSpan % 2048 := toNat_unpackExponent _
  have hfull : @UnpackedFloat.unpackExponent Format.binary64 x.toBits.toBitVec = -1#_ ↔
      x.toBits.toNat / fractionSpan % 2048 = 2047 := by
    rw [← BitVec.toNat_inj, hexponent]
    rfl
  have hleast : @UnpackedFloat.unpackExponent Format.binary64 x.toBits.toBitVec = 0#_ ↔
      x.toBits.toNat / fractionSpan % 2048 = 0 := by
    rw [← BitVec.toNat_inj, hexponent]
    rfl
  have hwhole : @UnpackedFloat.unpackMantissa Format.binary64 x.toBits.toBitVec = 0#_ ↔
      x.toBits.toNat % fractionSpan = 0 := by
    rw [← BitVec.toNat_inj, hmantissa]
    rfl
  have hbias : (Format.binary64.exponentBias : Int) + (52 : Nat) = 1075 := rfl
  have hsign := ofBitVec_unpackSign x.toBits.toBitVec
  change UnpackedFloat.unpack Format.binary64 x.toBits.toBitVec = _
  simp only [UnpackedFloat.unpack, parts, hsign, hfull, hleast, hwhole]
  split
  · split <;> rfl
  · split
    · -- the least exponent
      rename_i hzero
      simp only [Parts.unpacked]
      split
      · rfl
      · simp only [hmantissa, hexponent, hzero, hbias]
        rfl
    · -- a hidden leading digit
      rename_i hnonzero
      simp only [Parts.unpacked]
      rw [dif_neg (by simp [fractionSpan])]
      simp only [toNat_leading_append, hmantissa, hexponent, hbias, leastExponent]
      congr 1
      omega

/-! ### From bits to parts -/

/-- The exponent of the largest doubles. -/
def greatestExponent : Int := 971

/-- The bits of a sign and of a magnitude up to infinity are those of a double. -/
theorem toNat_toBits_ofBits (h : n ≤ infinityBits) :
    (Float.ofBits (UInt64.ofNat ((if negative then Nat.pow 2 63 else 0) + n))).toBits.toNat =
      (if negative then Nat.pow 2 63 else 0) + n := by
  simp only [infinityBits, fractionSpan, Nat.pow_eq, Nat.reducePow, Nat.reduceMul] at h ⊢
  generalize hw : (if negative then 9223372036854775808 else 0) + n = w
  have hsign : w = n ∨ w = 9223372036854775808 + n := by
    rw [← hw]
    split
    · exact .inr rfl
    · exact .inl (Nat.zero_add n)
  have hlt : w < 2 ^ 64 := by omega
  have hword : (UInt64.ofNat w).toBitVec.toNat = w := UInt64.toNat_ofNat_of_lt' hlt
  have hnan : @UnpackedFloat.isNaNBits Format.binary64 (UInt64.ofNat w).toBitVec = false := by
    refine decide_eq_false ?_
    rintro ⟨hexponent, hmantissa⟩
    rw [← BitVec.toNat_inj, toNat_unpackExponent, hword] at hexponent
    rw [Ne, ← BitVec.toNat_inj, toNat_unpackMantissa, hword] at hmantissa
    replace hexponent : w / 4503599627370496 % 2048 = 2047 := hexponent
    replace hmantissa : ¬ w % 4503599627370496 = 0 := hmantissa
    omega
  change (UInt64.ofBitVec (UnpackedFloat.pack Format.binary64
    (UnpackedFloat.unpack Format.binary64 (UInt64.ofNat w).toBitVec))).toNat = w
  rw [UnpackedFloat.pack_unpack, hnan]
  exact hword

/-- The sign of a double and its magnitude are read off its bits. -/
theorem fields_of_toNat_toBits (h : x.toBits.toNat = (if negative then Nat.pow 2 63 else 0) + n)
    (hn : n < Nat.pow 2 63) :
    decide (Nat.pow 2 63 ≤ x.toBits.toNat) = negative ∧ x.toBits.toNat % Nat.pow 2 63 = n := by
  rw [h]
  cases negative
  · rw [if_neg Bool.false_ne_true, Nat.zero_add]
    exact ⟨decide_eq_false (Nat.not_le.mpr hn), Nat.mod_eq_of_lt hn⟩
  · rw [if_pos rfl]
    exact ⟨decide_eq_true (Nat.le_add_right _ _), by rw [Nat.add_mod_left, Nat.mod_eq_of_lt hn]⟩

/-- The parts of the double with the bits of a dyadic. -/
theorem parts_of_toNat_toBits (hd : d.Normal) (hle : d.exponent ≤ greatestExponent)
    (h : x.toBits.toNat = (if d.negative then Nat.pow 2 63 else 0) +
      ((d.exponent - leastExponent).toNat * fractionSpan + d.mantissa)) :
    parts x = .finite d := by
  obtain ⟨negative, mantissa, exponent⟩ := d
  obtain ⟨hmantissa, hleast, hnormal⟩ := hd
  have hmagnitude : (exponent - leastExponent).toNat * fractionSpan + mantissa < Nat.pow 2 63 := by
    simp only [leastExponent, greatestExponent, fractionSpan, Nat.pow_eq, Nat.reducePow] at *
    omega
  obtain ⟨hnegative, hlow⟩ := fields_of_toNat_toBits h hmagnitude
  simp only [leastExponent, greatestExponent, fractionSpan, Nat.pow_eq, Nat.reducePow] at *
  simp only [parts, fractionSpan, leastExponent, Nat.pow_eq, Nat.reducePow, hnegative]
  by_cases hsub : mantissa < 4503599627370496
  · -- without a hidden leading digit
    have hexponent : exponent = -1074 := by omega
    rw [if_neg (by omega), if_pos (by omega),
      show x.toBits.toNat % 4503599627370496 = mantissa by omega, hexponent]
  · rw [if_neg (by omega), if_neg (by omega),
      show 4503599627370496 + x.toBits.toNat % 4503599627370496 = mantissa by omega,
      show -1074 + ((x.toBits.toNat / 4503599627370496 % 2048 - 1 : Nat) : Int) = exponent by omega]

end RuleLang.Number
