import RuleLang.Number.Arithmetic
import RuleLang.Proofs.Number.Undefined

/-!
# Whole doubles

Truncation answers a whole double, and its remainder by the number of 32-bit words is exact, whatever its
size: both are brought to a common power of two, on which rounding does not depend.

* `Number.nearestBits_mul_two_pow`: rounding does not depend on a common power of two.
* `Number.parts_ofRatio_one`: the parts of the double of a natural number that fits the mantissa.
* `Number.nearestBits_of_nonneg`: the larger whole doubles.
* `Number.IsWhole`, `Number.isWhole_truncate`: whole doubles, and what truncation answers.
* `Number.remainder_wordSpan`: the remainder by the number of words.
-/

namespace RuleLang.Number

variable {x y : Float} {d : Dyadic} {negative : Bool} {n : Nat}

/-! ### Rounding scaled quotients -/

/-- A ratio in other terms is rounded alike. -/
theorem roundHalfEven_mul_mul (num den : Nat) {k : Nat} (hk : 0 < k) :
    roundHalfEven (num * k) (den * k) = roundHalfEven num den := by
  have hlt : 2 * (num % den * k) < den * k ↔ 2 * (num % den) < den := by
    rw [← Nat.mul_assoc]
    exact Nat.mul_lt_mul_right hk
  have hgt : den * k < 2 * (num % den * k) ↔ den < 2 * (num % den) := by
    rw [← Nat.mul_assoc]
    exact Nat.mul_lt_mul_right hk
  simp only [roundHalfEven, Nat.mul_div_mul_right _ _ hk, Nat.mul_mod_mul_right, hlt, hgt]

/-- A ratio in other terms is scaled down alike. -/
theorem scaleDown_mul_mul (num den k : Nat) (e : Int) :
    scaleDown (num * k) (den * k) e = ((scaleDown num den e).1 * k, (scaleDown num den e).2 * k) := by
  rw [scaleDown, scaleDown]
  split
  · rw [Nat.mul_right_comm]
  · rw [Nat.mul_right_comm]

/-- A quotient is rounded as the one of which both parts are scaled by a power of two. -/
theorem nearestBits_mul_two_pow (num : Nat) {den : Nat} (hden : den ≠ 0) (k : Nat) :
    nearestBits (num * 2 ^ k) (den * 2 ^ k) = nearestBits num den := by
  have hk : 0 < 2 ^ k := Nat.two_pow_pos k
  rw [nearestBits, nearestBits]
  by_cases hnum : num = 0
  · rw [if_pos hnum, if_pos (by rw [hnum, Nat.zero_mul])]
  · have hexponent : exponentOf (num * 2 ^ k) (den * 2 ^ k) = exponentOf num den := by
      have hguess : ((num.log2 + k : Nat) : Int) - ((den.log2 + k : Nat) : Int) =
          (num.log2 : Int) - (den.log2 : Int) := by omega
      simp only [exponentOf, log2_mul_two_pow hnum, log2_mul_two_pow hden, hguess, scaleDown_mul_mul,
        Nat.mul_div_mul_right _ _ hk]
    rw [if_neg hnum, if_neg (Nat.mul_ne_zero hnum hk.ne')]
    simp only [hexponent, scaleDown_mul_mul, roundHalfEven_mul_mul _ _ hk]

/-! ### Doubles of naturals -/

/-- The parts of the double of a natural number that fits the mantissa. -/
theorem parts_ofRatio_one (hn : n ≠ 0) (h : n < 2 * fractionSpan) :
    parts (ofRatio negative n 1) = .finite ⟨negative, n * 2 ^ (52 - n.log2), (n.log2 : Int) - 52⟩ := by
  have hlog := log2_lt_of_lt h
  have hshift : (n * 2 ^ (52 - n.log2)).log2 = 52 := by
    rw [log2_mul_two_pow hn]
    omega
  have hne : n * 2 ^ (52 - n.log2) ≠ 0 := Nat.mul_ne_zero hn (Nat.two_pow_pos _).ne'
  refine parts_of_toNat_toBits ⟨?_, ?_, fun _ => ?_⟩ ?_ ?_
  · exact (Nat.log2_lt (k := 53) hne).mp (by rw [hshift]; decide)
  · simp only [leastExponent]
    omega
  · exact (Nat.le_log2 (k := 52) hne).mp hshift.ge
  · simp only [greatestExponent]
    omega
  · rw [ofRatio, toNat_toBits_ofBits (nearestBits_le n 1), nearestBits_one hn h]

/-- Zero has no mantissa. -/
theorem parts_ofRatio_zero : parts (ofRatio negative 0 1) = .finite ⟨negative, 0, leastExponent⟩ := by
  have hspan : 0 < 2 * fractionSpan := by decide
  have hrange : leastExponent ≤ greatestExponent := by decide
  refine parts_of_toNat_toBits ⟨hspan, Int.le_refl _, fun h => absurd h (Int.lt_irrefl _)⟩ hrange ?_
  rw [ofRatio, toNat_toBits_ofBits (nearestBits_le 0 1), nearestBits, if_pos rfl, Int.sub_self,
    Int.toNat_zero, Nat.zero_mul, Nat.zero_add]

/-- No double has a larger exponent than the greatest. -/
theorem exponent_le_of_parts (h : parts x = .finite d) : d.exponent ≤ greatestExponent := by
  rw [parts] at h
  split at h
  · split at h <;> cases h
  · rename_i hbiased
    have hlt : x.toBits.toNat / fractionSpan % 2048 < 2048 := Nat.mod_lt _ (by decide)
    split at h
    · cases h
      simp only [leastExponent, greatestExponent]
      omega
    · cases h
      simp only [leastExponent, greatestExponent]
      omega

/-- A double without a fraction is the nearest one to its own magnitude. -/
theorem nearestBits_of_nonneg (hd : d.Normal) (hle : d.exponent ≤ greatestExponent)
    (hnonneg : 0 ≤ d.exponent) :
    nearestBits (d.mantissa * 2 ^ d.exponent.toNat) 1 =
      (d.exponent - leastExponent).toNat * fractionSpan + d.mantissa := by
  obtain ⟨negative, m, e⟩ := d
  lift e to Nat using hnonneg
  have hnormal : fractionSpan ≤ m :=
    hd.fractionSpan_le (by simp only [leastExponent]; omega)
  have hlt : m < 2 * fractionSpan := hd.mantissa_lt
  have hm : m ≠ 0 := fun h => by
    rw [h] at hnormal
    exact absurd hnormal (by decide)
  have hlog : m.log2 = 52 := by
    have := log2_lt_of_lt hlt
    have : 52 ≤ m.log2 := (Nat.le_log2 hm).mpr hnormal
    omega
  have hne : m * 2 ^ e ≠ 0 := Nat.mul_ne_zero hm (Nat.two_pow_pos e).ne'
  have hexponent : exponentOf (m * 2 ^ e) 1 = e := by
    have hguess : ((m * 2 ^ e).log2 : Int) - ((1 : Nat).log2 : Int) - 53 = (e : Int) - 1 := by
      rw [log2_mul_two_pow hm, hlog, show (1 : Nat).log2 = 0 from rfl]
      omega
    have hlarge : Nat.pow 2 53 ≤
        (scaleDown (m * 2 ^ e) 1 ((e : Int) - 1)).1 / (scaleDown (m * 2 ^ e) 1 ((e : Int) - 1)).2 := by
      have hdouble : Nat.pow 2 53 ≤ 2 * m := by
        simp only [fractionSpan, Nat.pow_eq, Nat.reducePow] at hnormal ⊢
        omega
      rw [scaleDown]
      cases e with
      | zero => simpa [Nat.mul_comm] using hdouble
      | succ k =>
          have hdiv : m * 2 ^ (k + 1) / 2 ^ k = 2 * m := by
            rw [Nat.pow_succ, Nat.mul_left_comm, Nat.mul_div_cancel_left _ (Nat.two_pow_pos k), Nat.mul_comm]
          rw [if_neg (by omega), show ((k + 1 : Nat) : Int) - 1 = k by omega, Int.toNat_natCast]
          simpa only [Nat.one_mul, Nat.pow_eq, hdiv] using hdouble
    simp only [exponentOf, hguess, if_pos hlarge, leastExponent]
    omega
  have hround : roundHalfEven (m * 2 ^ e) (2 ^ e) = m := by
    have hscaled := roundHalfEven_mul_mul m 1 (Nat.two_pow_pos e)
    rwa [Nat.one_mul, roundHalfEven_one] at hscaled
  simp only [Int.toNat_natCast]
  rw [nearestBits, if_neg hne]
  simp only [hexponent, scaleDown, if_neg (Int.not_lt.mpr (Int.natCast_nonneg e)), Int.toNat_natCast,
    Nat.pow_eq, Nat.one_mul, hround]
  refine Nat.min_eq_right ?_
  simp only [greatestExponent, infinityBits, fractionSpan, leastExponent, Nat.pow_eq, Nat.reducePow] at *
  omega

/-- A double with an exponent that is not negative is the nearest one to its own magnitude. -/
theorem ofRatio_of_parts (h : parts x = .finite d) (hnonneg : 0 ≤ d.exponent) :
    ofRatio d.negative (d.mantissa * 2 ^ d.exponent.toNat) 1 = x := by
  rw [ofRatio, nearestBits_of_nonneg (normal_of_parts h) (exponent_le_of_parts h) hnonneg,
    ← toNat_toBits_of_parts h, UInt64.ofNat_toNat]
  exact Float.ofBits_toBits x

/-! ### Truncation -/

/-- A finite double with the sign of a number and a whole magnitude. -/
def IsWhole (x : Float) (negative : Bool) (n : Nat) : Prop :=
  ∃ d, parts x = .finite d ∧ d.negative = negative ∧ d.wholeMagnitude? = some n

/-- A natural number of at most 53 binary digits is a double without rounding. -/
theorem isWhole_ofRatio (negative : Bool) (h : n < 2 * fractionSpan) :
    IsWhole (ofRatio negative n 1) negative n := by
  rcases Nat.eq_zero_or_pos n with rfl | hn
  · refine ⟨_, parts_ofRatio_zero, rfl, wholeMagnitude?_eq_some_iff.mpr ?_⟩
    rw [Nat.zero_mul, Nat.zero_mul]
  · have hlog := log2_lt_of_lt h
    refine ⟨_, parts_ofRatio_one hn.ne' h, rfl, wholeMagnitude?_eq_some_iff.mpr ?_⟩
    simp only [show (-((n.log2 : Int) - 52)).toNat = 52 - n.log2 by omega,
      show ((n.log2 : Int) - 52).toNat = 0 by omega, Nat.pow_zero, Nat.mul_one]

/-- The magnitude of the whole part of a dyadic. -/
theorem natAbs_truncate (d : Dyadic) : d.truncate.natAbs =
    if d.exponent < 0 then d.mantissa / 2 ^ (-d.exponent).toNat else d.mantissa * 2 ^ d.exponent.toNat := by
  simp only [Dyadic.truncate, Nat.pow_eq]
  split <;> split <;> simp only [Int.natAbs_neg, Int.natAbs_natCast]

/-- A number without its fraction is whole, with the sign that it had. -/
theorem isWhole_truncate (h : parts x = .finite d) :
    IsWhole (truncate x) d.negative d.truncate.natAbs := by
  have htruncate : truncate x = ofRatio d.negative d.truncate.natAbs 1 := by
    rw [truncate, h]
  by_cases hnegative : d.exponent < 0
  · rw [htruncate]
    refine isWhole_ofRatio _ (Nat.lt_of_le_of_lt ?_ (normal_of_parts h).mantissa_lt)
    rw [natAbs_truncate, if_pos hnegative]
    exact Nat.div_le_self _ _
  · have hnonneg := Int.not_lt.mp hnegative
    rw [natAbs_truncate, if_neg hnegative] at htruncate ⊢
    rw [ofRatio_of_parts h hnonneg] at htruncate
    rw [htruncate]
    refine ⟨d, h, rfl, ?_⟩
    rw [Dyadic.wholeMagnitude?, if_pos hnonneg, Nat.pow_eq]

/-! ### The remainder by the number of words -/

/-- The parts of the number of words. -/
theorem parts_wordSpan : parts wordSpan = .finite ⟨false, fractionSpan, -20⟩ := by
  have hspan : 2 ^ 32 < 2 * fractionSpan := by decide
  have hparts : parts (ofRatio false (2 ^ 32) 1) = _ := parts_ofRatio_one (by decide) hspan
  rw [Nat.log2_two_pow] at hparts
  exact hparts

/-- A whole number on a grid that is finer than one. -/
theorem mantissa_mul_eq {e : Int} (h : d.wholeMagnitude? = some n) (hle : e ≤ d.exponent) (hneg : e < 0) :
    d.mantissa * 2 ^ (d.exponent - e).toNat = n * 2 ^ (-e).toNat := by
  have heq := wholeMagnitude?_eq_some_iff.mp h
  by_cases hexponent : d.exponent < 0
  · rw [show d.exponent.toNat = 0 by omega, Nat.pow_zero, Nat.mul_one] at heq
    rw [← heq, Nat.mul_assoc, ← Nat.pow_add]
    congr 2
    omega
  · rw [show (-d.exponent).toNat = 0 by omega, Nat.pow_zero, Nat.mul_one] at heq
    rw [heq, Nat.mul_assoc, ← Nat.pow_add]
    congr 2
    omega

/-- The remainder of a whole number by the number of words, exactly. -/
theorem remainder_wordSpan (h : IsWhole x negative n) :
    remainder x wordSpan = ofRatio negative (n % 2 ^ 32) 1 := by
  obtain ⟨d, hd, rfl, hn⟩ := h
  have hspan : fractionSpan ≠ 0 := by decide
  have hmin : min d.exponent (-20) < 0 := by omega
  have hnum := mantissa_mul_eq hn (Int.min_le_left d.exponent (-20)) hmin
  have hden : fractionSpan * 2 ^ (-20 - min d.exponent (-20)).toNat =
      2 ^ 32 * 2 ^ (-min d.exponent (-20)).toNat := by
    rw [fractionSpan, Nat.pow_eq, ← Nat.pow_add, ← Nat.pow_add]
    congr 1
    omega
  simp only [remainder, hd, parts_wordSpan, if_neg hspan, Dyadic.remainder, Nat.pow_eq, hnum, hden,
    Nat.mul_mod_mul_right, ofDyadic, if_pos hmin]
  have hround := nearestBits_mul_two_pow (n % 2 ^ 32) Nat.one_ne_zero
    (-min d.exponent (-20)).toNat
  rw [Nat.one_mul] at hround
  rw [ofRatio, ofRatio, hround]

end RuleLang.Number
