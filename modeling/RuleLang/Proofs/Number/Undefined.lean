import RuleLang.Proofs.Number.Fields

/-!
# When a double is a number

A double that is a number has a sign, and what is not a number has none. Signs outlast rounding, so that
sums and products of numbers that are not negative are numbers again, even where they overflow.

* `Number.sign?`, `Number.isNaN_eq_false_iff`: the sign, and what has one.
* `Number.sign?_unpack_pack`: the sign after rounding.
* `Number.sign?_ofRatio`, `Number.sign?_ofDecimal`: quotients and decimals are numbers.
* `Number.sign?_mul`, `Number.sign?_add`: products and sums.
-/

namespace RuleLang.Number

open Float.Model (UnpackedFloat Format)
open Float.Model.UnpackedFloat (Sign)

variable {x y : Float} {u v : UnpackedFloat} {s : Sign} {negative : Bool} {n : Nat}

/-! ### Signs -/

/-- The sign of a number; what is not a number has none. -/
def sign? : UnpackedFloat → Option Sign
  | .notANumber => none
  | .infinity s => some s
  | .zero s => some s
  | .finite s _ _ _ => some s

/-- What is a number has a sign. -/
theorem isNaN_eq_false_iff : x.isNaN = false ↔ ∃ s, sign? x.toModel.unpack = some s := by
  change x.toModel.unpack.isNaN = false ↔ _
  cases x.toModel.unpack <;> simp [UnpackedFloat.isNaN, sign?]

/-- Bits with a full exponent and no mantissa are infinite; all others but those of a full exponent are
finite. -/
theorem sign?_unpack_packComponents {exponent : BitVec 11} {mantissa : BitVec 52}
    (h : exponent = -1#_ → mantissa = 0#_) :
    sign? (UnpackedFloat.unpack Format.binary64
      (UnpackedFloat.packComponents Format.binary64 s exponent mantissa)) = some s := by
  simp only [UnpackedFloat.unpack, UnpackedFloat.unpackExponent_packComponents,
    UnpackedFloat.unpackMantissa_packComponents, UnpackedFloat.unpackSign_packComponents,
    Sign.ofBitVec_toBitVec]
  split
  · rename_i hfull
    rw [if_pos (h hfull), sign?]
  · split
    · split <;> rfl
    · rfl

/-- The sign outlasts packing, also where the number overflows or is too small. -/
theorem sign?_unpack_pack (u : UnpackedFloat) :
    sign? (UnpackedFloat.unpack Format.binary64 (UnpackedFloat.pack Format.binary64 u)) = sign? u := by
  cases u with
  | notANumber => rw [UnpackedFloat.pack, UnpackedFloat.unpack_packedNaN]
  | infinity s => exact sign?_unpack_packComponents fun _ => rfl
  | zero s => exact sign?_unpack_packComponents fun _ => rfl
  | finite s m e hm =>
      simp only [UnpackedFloat.pack]
      split
      · exact sign?_unpack_packComponents fun _ => rfl
      · rename_i hroom
        split
        · refine sign?_unpack_packComponents fun hfull => absurd ?_ hroom
          have hvalue := congrArg BitVec.toNat hfull
          rw [BitVec.toNat_ofNat] at hvalue
          change _ % 2 ^ 11 = 2047 at hvalue
          omega
        · exact sign?_unpack_packComponents fun hfull => absurd hfull (by decide)

/-- Up to the bits of infinity a double is a number, whose sign is the highest bit. -/
theorem sign?_of_toNat_toBits (h : x.toBits.toNat = (if negative then Nat.pow 2 63 else 0) + n)
    (hn : n ≤ infinityBits) : sign? x.toModel.unpack = some (signOf negative) := by
  have hfinite (d : Dyadic) : sign? (Parts.finite d).unpacked = some (signOf d.negative) := by
    rw [Parts.unpacked]
    split <;> rfl
  obtain ⟨hnegative, hlow⟩ := fields_of_toNat_toBits h (Nat.lt_of_le_of_lt hn (by decide))
  simp only [infinityBits, fractionSpan, Nat.pow_eq, Nat.reducePow, Nat.reduceMul] at hn hnegative hlow
  rw [unpack_eq]
  simp only [parts, fractionSpan, Nat.pow_eq, Nat.reducePow, hnegative]
  split
  · rw [if_pos (by omega)]
    rfl
  · split <;> exact hfinite _

/-- A double that is made of bits up to those of infinity is a number with that sign. -/
theorem sign?_ofBits (hn : n ≤ infinityBits) :
    sign? (Float.ofBits (UInt64.ofNat ((if negative then Nat.pow 2 63 else 0) + n))).toModel.unpack =
      some (signOf negative) :=
  sign?_of_toNat_toBits (toNat_toBits_ofBits hn) hn

/-- The nearest double to a ratio is at most infinity. -/
theorem nearestBits_le (num den : Nat) : nearestBits num den ≤ infinityBits := by
  rw [nearestBits]
  split
  · exact Nat.zero_le _
  · exact Nat.min_le_left _ _

/-- The double nearest to a ratio is a number with the sign of the ratio. -/
@[simp] theorem sign?_ofRatio (negative : Bool) (num den : Nat) :
    sign? (ofRatio negative num den).toModel.unpack = some (signOf negative) :=
  sign?_ofBits (nearestBits_le num den)

/-- Infinity is a number with a sign. -/
@[simp] theorem sign?_infinity (negative : Bool) :
    sign? (infinity negative).toModel.unpack = some (signOf negative) :=
  sign?_ofBits (Nat.le_refl _)

/-- The double nearest to a decimal is a number with the sign of the decimal. -/
@[simp] theorem sign?_ofDecimal (negative : Bool) (digits : Nat) (exponent : Int) :
    sign? (ofDecimal negative digits exponent).toModel.unpack = some (signOf negative) := by
  rw [ofDecimal]
  split_ifs <;> simp

/-- What stands for no number is none. -/
theorem isNaN_nan : nan.isNaN = true := by decide +kernel

/-! ### Sums and products that are not negative -/

/-- Rounding keeps the sign. -/
theorem sign?_roundWithAccuracy (s : Sign) (m : Nat) (e : Int) (a : UnpackedFloat.Accuracy) :
    sign? (UnpackedFloat.roundWithAccuracy Format.binary64 s m e a) = some s := by
  simp only [UnpackedFloat.roundWithAccuracy]
  split <;> rfl

/-- A number that is not negative times a positive finite one. -/
theorem sign?_mul {m : Nat} {e : Int} {hm : 0 < m} (hx : sign? x.toModel.unpack = some .positive)
    (hy : y.toModel.unpack = .finite .positive m e hm) :
    sign? (x * y).toModel.unpack = some .positive := by
  change sign? (UnpackedFloat.unpack _ (UnpackedFloat.pack _
    (UnpackedFloat.mul Format.binary64 x.toModel.unpack y.toModel.unpack))) = _
  rw [sign?_unpack_pack, hy]
  cases hu : x.toModel.unpack with
  | notANumber => rw [hu] at hx; cases hx
  | infinity s => rw [hu] at hx; cases hx; rfl
  | zero s => rw [hu] at hx; cases hx; rfl
  | finite s m e hm =>
      rw [hu] at hx
      cases hx
      exact sign?_roundWithAccuracy _ _ _ _

/-- What is not negative is rounded to a number that is not negative. -/
theorem sign?_normalize {m : Int} (h : 0 ≤ m) (e : Int) :
    sign? (UnpackedFloat.normalize Format.binary64 m e .positive) = some .positive := by
  simp only [UnpackedFloat.normalize]
  split
  · rename_i hlt
    exact absurd (compare_lt_iff_lt.mp hlt) (not_lt.mpr h)
  · rfl
  · exact sign?_roundWithAccuracy _ _ _ _

/-- The sum of two numbers that are not negative. -/
theorem sign?_add (hx : sign? x.toModel.unpack = some .positive)
    (hy : sign? y.toModel.unpack = some .positive) : sign? (x + y).toModel.unpack = some .positive := by
  change sign? (UnpackedFloat.unpack _ (UnpackedFloat.pack _
    (UnpackedFloat.add Format.binary64 x.toModel.unpack y.toModel.unpack))) = _
  rw [sign?_unpack_pack]
  generalize x.toModel.unpack = u at hx
  generalize y.toModel.unpack = v at hy
  cases u with
  | notANumber => cases hx
  | infinity s =>
      cases hx
      cases v with
      | notANumber => cases hy
      | infinity t =>
          cases hy
          rfl
      | _ => rfl
  | zero s =>
      cases hx
      cases v with
      | notANumber => cases hy
      | zero t =>
          cases hy
          rfl
      | _ => exact hy
  | finite s m e hm =>
      cases hx
      cases v with
      | notANumber => cases hy
      | finite t m' e' hm' =>
          cases hy
          exact sign?_normalize (Int.add_nonneg (Int.natCast_nonneg _) (Int.natCast_nonneg _)) _
      | infinity t => exact hy
      | zero t => rfl

end RuleLang.Number
