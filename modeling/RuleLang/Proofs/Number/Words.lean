import RuleLang.Proofs.Number.Sums

/-!
# Doubles as words

A finite double is a rational number, and its words are the whole part of that number modulo the number of
words. A word is a double exactly and comes back from it.

* `Number.rational?`, `Number.wholePart`: the rational number of a double, and a number without its fraction.
* `Number.wholePart_toRat`: the whole part of a dyadic.
* `Number.toNat_toUInt32`, `Number.toInt_toInt32`: the words of a double.
* `Number.toInt32_ofInt32`, `Number.toUInt32_ofUInt32`: words and back.
-/

namespace RuleLang.Number

variable {x : Float} {d : Dyadic} {negative : Bool} {n : Nat} {q : ℚ}

/-! ### Doubles as rational numbers -/

/-- The rational number that a dyadic is. -/
def Dyadic.toRat (d : Dyadic) : ℚ :=
  (if d.negative then -1 else 1) * (d.mantissa * 2 ^ d.exponent)

/-- The rational number that a finite double is. -/
def rational? (x : Float) : Option ℚ :=
  match parts x with
  | .finite d => some d.toRat
  | _ => none

/-- A rational number without its fraction. -/
def wholePart (q : ℚ) : ℤ :=
  if 0 ≤ q then ⌊q⌋ else ⌈q⌉

/-- The rational number of a double is that of its parts. -/
theorem rational?_eq_some_iff : rational? x = some q ↔ ∃ d, parts x = .finite d ∧ d.toRat = q := by
  rw [rational?]
  cases parts x <;> simp

/-- What has a rational number is finite in the logic. -/
theorem isSome_rational? (x : Float) : (rational? x).isSome = x.isFinite := by
  change _ = x.toModel.unpack.isFinite
  rw [unpack_eq, rational?]
  cases parts x with
  | nan => rfl
  | infinite negative => rfl
  | finite d =>
      rw [Parts.unpacked]
      by_cases hzero : d.mantissa = 0
      · rw [dif_pos hzero]
        rfl
      · rw [dif_neg hzero]
        rfl

/-- A double is finite when it is a rational number. -/
theorem isFinite_eq_isSome (x : Float) : isFinite x = (rational? x).isSome := by
  rw [isFinite, rational?]
  cases parts x <;> rfl

/-- The whole part of a negated number is the negated whole part. -/
theorem wholePart_neg (q : ℚ) : wholePart (-q) = -wholePart q := by
  rw [wholePart, wholePart]
  rcases lt_trichotomy q 0 with h | rfl | h
  · rw [if_pos (by linarith), if_neg (by linarith), Int.floor_neg]
  · simp
  · rw [if_neg (by linarith), if_pos h.le, Int.ceil_neg]

/-- What is left of truncation has the sign of the number. -/
theorem truncate_eq (d : Dyadic) :
    d.truncate = if d.negative then -(d.truncate.natAbs : ℤ) else d.truncate.natAbs := by
  cases hnegative : d.negative
  · simp only [Dyadic.truncate, hnegative, Bool.false_eq_true, if_false]
    split <;> rw [Int.natAbs_natCast]
  · simp only [Dyadic.truncate, hnegative, if_true]
    split <;> rw [Int.natAbs_neg, Int.natAbs_natCast]

/-- The whole part of a dyadic is that of its rational number. -/
theorem wholePart_toRat (d : Dyadic) : wholePart d.toRat = d.truncate := by
  have hmagnitude : wholePart (d.mantissa * 2 ^ d.exponent) = d.truncate.natAbs := by
    rw [wholePart, if_pos (by positivity), natAbs_truncate]
    split
    · rename_i hexponent
      obtain ⟨k, hk⟩ : ∃ k : Nat, d.exponent = -k := ⟨(-d.exponent).toNat, by omega⟩
      rw [hk, zpow_neg, zpow_natCast, ← div_eq_mul_inv, Int.neg_neg, Int.toNat_natCast]
      have hfloor := Rat.floor_natCast_div_natCast d.mantissa (2 ^ k)
      rw [Nat.cast_pow, Nat.cast_ofNat] at hfloor
      rw [hfloor, Int.natCast_div]
    · rename_i hexponent
      obtain ⟨k, hk⟩ : ∃ k : Nat, d.exponent = k := ⟨d.exponent.toNat, by omega⟩
      rw [hk, zpow_natCast, Int.toNat_natCast]
      exact_mod_cast Int.floor_natCast (R := ℚ) (d.mantissa * 2 ^ k)
  rw [truncate_eq, Dyadic.toRat]
  cases d.negative
  · rw [if_neg Bool.false_ne_true, if_neg Bool.false_ne_true, one_mul, hmagnitude]
  · rw [if_pos rfl, if_pos rfl, neg_one_mul, wholePart_neg, hmagnitude]

/-- The rational number of a whole double. -/
theorem rational?_of_isWhole (h : IsWhole x negative n) :
    rational? x = some (if negative then -(n : ℚ) else n) := by
  obtain ⟨d, hd, rfl, hn⟩ := h
  have heq := wholeMagnitude?_eq_some_iff.mp hn
  have hmagnitude : (d.mantissa : ℚ) * 2 ^ d.exponent = n := by
    rcases Int.le_total d.exponent 0 with hexponent | hexponent
    · obtain ⟨k, hk⟩ : ∃ k : Nat, d.exponent = -k := ⟨(-d.exponent).toNat, by omega⟩
      rw [hk, Int.neg_neg, Int.toNat_natCast, Int.toNat_neg_natCast, Nat.pow_zero, Nat.mul_one] at heq
      rw [hk, zpow_neg, zpow_natCast, ← heq, Nat.cast_mul, Nat.cast_pow, Nat.cast_ofNat]
      exact mul_inv_cancel_right₀ (by positivity) _
    · obtain ⟨k, hk⟩ : ∃ k : Nat, d.exponent = k := ⟨d.exponent.toNat, by omega⟩
      rw [hk, Int.toNat_natCast, Int.toNat_neg_natCast, Nat.pow_zero, Nat.mul_one] at heq
      rw [hk, zpow_natCast, heq, Nat.cast_mul, Nat.cast_pow, Nat.cast_ofNat]
  refine rational?_eq_some_iff.mpr ⟨d, hd, ?_⟩
  rw [Dyadic.toRat, hmagnitude]
  split <;> ring

/-! ### Words -/

/-- The double of a natural number is that of a ratio. -/
theorem ofInt_natCast (n : Nat) : ofInt n = ofRatio false n 1 := by
  rw [ofInt, decide_eq_false (by omega), Int.natAbs_natCast]

/-- The double of a negative integer is that of a negative ratio. -/
theorem ofInt_neg_natCast (hn : n ≠ 0) : ofInt (-(n : ℤ)) = ofRatio true n 1 := by
  rw [ofInt, decide_eq_true (by omega), Int.natAbs_neg, Int.natAbs_natCast]

/-- A negative remainder is brought up by the number of words. -/
theorem ofRatio_add_wordSpan (hn : n ≠ 0) (hlt : n < 2 ^ 32) :
    ofRatio true n 1 + wordSpan = ofRatio false (2 ^ 32 - n) 1 := by
  have hsum : -(n : ℤ) + Int.pow 2 32 = ((2 ^ 32 - n : ℕ) : ℤ) := by
    rw [Int.pow_eq]
    omega
  have hsmall {m : ℤ} (h : m.natAbs ≤ 2 ^ 32) : IsSmall m := Nat.lt_of_le_of_lt h (by decide)
  have hadd := ofInt_add_ofInt (i := -(n : ℤ)) (j := Int.pow 2 32) (hsmall (by omega))
    (hsmall (Nat.le_refl _)) (hsmall (by rw [hsum]; omega))
  rwa [hsum, ofInt_neg_natCast hn, ofInt_natCast] at hadd

/-- The word of a whole number is its remainder by the number of words. -/
theorem toNat_euclideanRemainder (h : IsWhole x negative n) :
    ((euclideanRemainder x wordSpan).toUInt32.toNat : ℤ) =
      (if negative then -(n : ℤ) else n) % 2 ^ 32 := by
  have hspan : 2 ^ 32 < 2 * fractionSpan := by decide
  have hlt : n % 2 ^ 32 < 2 ^ 32 := Nat.mod_lt _ (by decide)
  have hbelow := ofRatio_lt_ofInt_zero_iff negative (hlt.trans hspan)
  simp only [euclideanRemainder, remainder_wordSpan h, hbelow, abs_wordSpan]
  by_cases hneg : negative = true ∧ n % 2 ^ 32 ≠ 0
  · rw [if_pos hneg]
    obtain ⟨rfl, hne⟩ := hneg
    have hrest : 2 ^ 32 - n % 2 ^ 32 < 2 ^ 32 := by omega
    rw [ofRatio_add_wordSpan hne hlt, toNat_toUInt32_ofRatio hrest Bool.noConfusion, if_pos rfl]
    omega
  · rw [if_neg hneg, toNat_toUInt32_ofRatio hlt (by tauto)]
    cases negative
    · simp
    · have hdvd : n % 2 ^ 32 = 0 := by tauto
      rw [if_pos rfl]
      omega

/-- The unsigned word of a finite double is its whole part modulo the number of words. -/
theorem toNat_toUInt32 (h : rational? x = some q) :
    ((toUInt32 x).toNat : ℤ) = wholePart q % 2 ^ 32 := by
  obtain ⟨d, hd, rfl⟩ := rational?_eq_some_iff.mp h
  have hfinite : isFinite x = true := by rw [isFinite_eq_isSome, h, Option.isSome_some]
  rw [toUInt32, if_pos hfinite, toNat_euclideanRemainder (isWhole_truncate hd), wholePart_toRat,
    ← truncate_eq]

/-- The signed word has the bits of the unsigned one. -/
theorem toInt_toInt32 (x : Float) : (toInt32 x).toInt = ((toUInt32 x).toNat : ℤ).bmod (2 ^ 32) :=
  BitVec.toInt_eq_toNat_bmod _

/-- What is no finite number becomes the word zero. -/
theorem toUInt32_of_rational?_eq_none (h : rational? x = none) : toUInt32 x = 0 := by
  have hfinite : isFinite x = false := by rw [isFinite_eq_isSome, h, Option.isSome_none]
  rw [toUInt32, hfinite, if_neg Bool.false_ne_true]

/-- An integer that fits the mantissa is a double exactly. -/
theorem rational?_ofInt {i : ℤ} (h : IsSmall i) : rational? (ofInt i) = some (i : ℚ) := by
  rw [ofInt, rational?_of_isWhole (isWhole_ofRatio _ h)]
  by_cases hi : i < 0
  · rw [if_pos (decide_eq_true hi)]
    rw [← Int.cast_natCast, ← Int.cast_neg, show -(i.natAbs : ℤ) = i by omega]
  · rw [if_neg (by simpa using hi)]
    rw [← Int.cast_natCast, show (i.natAbs : ℤ) = i by omega]

/-- The whole part of an integer is the integer. -/
theorem wholePart_intCast (i : ℤ) : wholePart i = i := by
  rw [wholePart, Int.floor_intCast, Int.ceil_intCast, ite_self]

/-- A signed word is a small integer. -/
theorem isSmall_toInt (w : Int32) : IsSmall w.toInt := by
  have hlt := w.toInt_lt
  have hle := w.le_toInt
  simp only [IsSmall, fractionSpan, Nat.pow_eq, Nat.reducePow]
  omega

/-- An unsigned word is a small integer. -/
theorem isSmall_toNat (w : UInt32) : IsSmall (w.toNat : ℤ) := by
  have hlt := w.toNat_lt
  simp only [IsSmall, fractionSpan, Nat.pow_eq, Nat.reducePow]
  omega

/-- A signed word outlasts its number. -/
theorem toInt32_ofInt32 (w : Int32) : toInt32 (ofInt32 w) = w := by
  have hword := toNat_toUInt32 (rational?_ofInt (isSmall_toInt w))
  rw [wholePart_intCast] at hword
  refine Int32.toInt_inj.mp ?_
  have hbmod : (w.toInt % 2 ^ 32).bmod (2 ^ 32) = w.toInt.bmod (2 ^ 32) := Int.emod_bmod _ _
  rw [ofInt32, toInt_toInt32, hword, hbmod]
  exact w.toInt_bmod

/-- An unsigned word outlasts its number. -/
theorem toUInt32_ofUInt32 (w : UInt32) : toUInt32 (ofUInt32 w) = w := by
  have hword := toNat_toUInt32 (rational?_ofInt (isSmall_toNat w))
  rw [wholePart_intCast] at hword
  refine UInt32.toNat_inj.mp ?_
  have hlt := w.toNat_lt
  rw [ofUInt32]
  omega

end RuleLang.Number
