import Mathlib
import RuleLang.Number.Text

/-!
# Integers among the doubles

An integer of moderate size is a double exactly, so that writing a whole double as an integer and
reading it again loses nothing but the sign of zero.

* `Number.Dyadic.Normal`: the form in which a double is taken apart.
* `Number.toNat_toBits_of_parts`: the bits of a double from its parts.
* `Number.nearestBits_one`: the bits of a natural number that fits the mantissa.
* `Number.ofInt_of_exactInteger?`: the double of the integer that a nonzero double is.
-/

namespace RuleLang.Number

variable {x : Float} {d : Dyadic}

/-! ### Parts and bits -/

/-- A mantissa of 53 binary digits, or a smaller one with the least exponent. -/
structure Dyadic.Normal (d : Dyadic) : Prop where
  mantissa_lt : d.mantissa < 2 * fractionSpan
  leastExponent_le : leastExponent ≤ d.exponent
  fractionSpan_le : leastExponent < d.exponent → fractionSpan ≤ d.mantissa

/-- The parts of a double are in normal form. -/
theorem normal_of_parts (h : parts x = .finite d) : d.Normal := by
  have hspan : 0 < fractionSpan := Nat.two_pow_pos 52
  have hfraction : x.toBits.toNat % fractionSpan < fractionSpan := Nat.mod_lt _ hspan
  rw [parts] at h
  split at h
  · split at h <;> cases h
  · split at h
    · cases h
      refine ⟨?_, Int.le_refl _, fun hlt => absurd hlt (Int.lt_irrefl _)⟩
      show x.toBits.toNat % fractionSpan < 2 * fractionSpan
      omega
    · cases h
      refine ⟨?_, Int.le_add_of_nonneg_right (Int.natCast_nonneg _), fun _ => Nat.le_add_right _ _⟩
      show fractionSpan + x.toBits.toNat % fractionSpan < 2 * fractionSpan
      omega

/-- The bits of a double are its sign, its exponent above the least one and its mantissa, added up:
the leading digit of the mantissa is the one by which the exponent field is larger. -/
theorem toNat_toBits_of_parts (h : parts x = .finite d) :
    x.toBits.toNat = (if d.negative then Nat.pow 2 63 else 0) +
      ((d.exponent - leastExponent).toNat * fractionSpan + d.mantissa) := by
  have hbits : x.toBits.toNat < Nat.pow 2 64 := x.toBits.toNat_lt
  rw [parts] at h
  split at h
  · split at h <;> cases h
  · split at h
    all_goals
      cases h
      simp only [fractionSpan, leastExponent, Nat.pow_eq, Nat.reducePow, decide_eq_true_eq] at *
      split <;> omega

/-! ### Naturals that fit the mantissa -/

/-- A multiple by a power of two has so many binary digits more. -/
theorem log2_mul_two_pow {n : Nat} (h : n ≠ 0) (k : Nat) : (n * 2 ^ k).log2 = n.log2 + k := by
  have hpos : n * 2 ^ k ≠ 0 := Nat.mul_ne_zero h (Nat.two_pow_pos k).ne'
  rw [Nat.log2_eq_iff hpos]
  have hlog := (Nat.log2_eq_iff h).mp rfl
  constructor
  · rw [Nat.pow_add]
    exact Nat.mul_le_mul_right _ hlog.1
  · rw [Nat.add_right_comm, Nat.pow_add]
    exact Nat.mul_lt_mul_of_pos_right hlog.2 (Nat.two_pow_pos k)

/-- A natural number is not rounded. -/
theorem roundHalfEven_one (n : Nat) : roundHalfEven n 1 = n := by
  simp [roundHalfEven, Nat.mod_one]

/-- A mantissa has at most 53 binary digits. -/
theorem log2_lt_of_lt {n : Nat} (h : n < 2 * fractionSpan) : n.log2 < 53 := by
  rcases Nat.eq_zero_or_pos n with rfl | hn
  · decide
  · exact (Nat.log2_lt hn.ne').mpr h

/-- A natural number of at most 53 binary digits is scaled to exactly that many. -/
theorem exponentOf_one {n : Nat} (hn : n ≠ 0) (h : n < 2 * fractionSpan) :
    exponentOf n 1 = (n.log2 : Int) - 52 := by
  have hlog := log2_lt_of_lt h
  have hexp : (-((n.log2 : Int) - 53)).toNat = 53 - n.log2 := by omega
  have hlarge : Nat.pow 2 53 ≤ n * Nat.pow 2 (53 - n.log2) := by
    refine (Nat.le_log2 (Nat.mul_ne_zero hn (Nat.two_pow_pos _).ne')).mp ?_
    rw [log2_mul_two_pow hn]
    omega
  have hneg : (n.log2 : Int) - 53 < 0 := by omega
  have hone : ((1 : Nat).log2 : Int) = 0 := rfl
  simp only [exponentOf, scaleDown, hone, Int.sub_zero, if_pos hneg, hexp, Nat.div_one]
  rw [if_pos hlarge, leastExponent]
  omega

/-- The bits of a natural number of at most 53 binary digits. -/
theorem nearestBits_one {n : Nat} (hn : n ≠ 0) (h : n < 2 * fractionSpan) :
    nearestBits n 1 = ((n.log2 : Int) - 52 - leastExponent).toNat * fractionSpan +
      n * 2 ^ (52 - n.log2) := by
  have hlog := log2_lt_of_lt h
  have hscaled : scaleDown n 1 ((n.log2 : Int) - 52) = (n * 2 ^ (52 - n.log2), 1) := by
    rw [scaleDown]
    split
    · rw [show (-((n.log2 : Int) - 52)).toNat = 52 - n.log2 by omega, Nat.pow_eq]
    · rw [show ((n.log2 : Int) - 52).toNat = 0 by omega, show 52 - n.log2 = 0 by omega]
      simp
  have hmantissa : n * 2 ^ (52 - n.log2) < 2 * fractionSpan := by
    refine (Nat.log2_lt (k := 53) (Nat.mul_ne_zero hn (Nat.two_pow_pos _).ne')).mp ?_
    rw [log2_mul_two_pow hn]
    omega
  rw [nearestBits, if_neg hn, exponentOf_one hn h]
  simp only [hscaled, roundHalfEven_one]
  refine Nat.min_eq_right ?_
  simp only [infinityBits, fractionSpan, leastExponent, Nat.pow_eq, Nat.reducePow] at hmantissa ⊢
  omega

/-! ### Whole doubles -/

/-- The whole magnitude of a double is its mantissa, scaled by the exponent, if that is whole. -/
theorem wholeMagnitude?_eq_some_iff {n : Nat} :
    d.wholeMagnitude? = some n ↔
      n * 2 ^ (-d.exponent).toNat = d.mantissa * 2 ^ d.exponent.toNat := by
  have hunit : 0 < 2 ^ (-d.exponent).toNat := Nat.two_pow_pos _
  rw [Dyadic.wholeMagnitude?]
  split
  · rename_i h
    rw [show (-d.exponent).toNat = 0 by omega, Nat.pow_zero, Nat.mul_one, Nat.pow_eq,
      Option.some.injEq, eq_comm]
  · rename_i h
    simp only [show d.exponent.toNat = 0 by omega, Nat.pow_zero, Nat.mul_one, Nat.pow_eq]
    split
    · rename_i hdvd
      rw [Option.some.injEq, Nat.div_eq_iff_eq_mul_left hunit (Nat.dvd_of_mod_eq_zero hdvd)]
      exact eq_comm
    · rename_i hdvd
      refine ⟨nofun, fun h => absurd ?_ hdvd⟩
      rw [← h, Nat.mul_mod_left]

/-- A whole number that fits the mantissa has the bits of its mantissa and exponent. -/
theorem nearestBits_of_wholeMagnitude? {n : Nat} (hd : d.Normal) (h : d.wholeMagnitude? = some n)
    (hn : n ≠ 0) (hle : n ≤ largestExactInteger) :
    nearestBits n 1 = (d.exponent - leastExponent).toNat * fractionSpan + d.mantissa := by
  have hlt : n < 2 * fractionSpan := by
    simp only [largestExactInteger, fractionSpan, Nat.pow_eq, Nat.reducePow] at hle ⊢
    omega
  have hlogn := log2_lt_of_lt hlt
  have heq := wholeMagnitude?_eq_some_iff.mp h
  have hm : d.mantissa ≠ 0 := by
    intro hzero
    rw [hzero, Nat.zero_mul] at heq
    exact Nat.mul_ne_zero hn (Nat.two_pow_pos _).ne' heq
  -- Both sides have the same number of binary digits, which gives the exponent.
  have hlog : n.log2 + (-d.exponent).toNat = d.mantissa.log2 + d.exponent.toNat := by
    rw [← log2_mul_two_pow hn, ← log2_mul_two_pow hm, heq]
  have hlogm := log2_lt_of_lt hd.mantissa_lt
  have hleast := hd.leastExponent_le
  simp only [leastExponent] at hleast
  have hnormal : fractionSpan ≤ d.mantissa := hd.fractionSpan_le (by simp only [leastExponent]; omega)
  have hlogm' : 52 ≤ d.mantissa.log2 := (Nat.le_log2 hm).mpr hnormal
  have hexp : d.exponent = (n.log2 : Int) - 52 := by omega
  rw [nearestBits_one hn hlt, hexp]
  rw [show (-d.exponent).toNat = 52 - n.log2 by omega, show d.exponent.toNat = 0 by omega,
    Nat.pow_zero, Nat.mul_one] at heq
  rw [heq]

/-- The exact integer of a double is its signed whole magnitude, up to the largest. -/
theorem exactInteger?_eq_some_iff {i : Int} :
    exactInteger? x = some i ↔ ∃ d n, parts x = .finite d ∧ d.wholeMagnitude? = some n ∧
      n ≤ largestExactInteger ∧ i = if d.negative then -(n : Int) else n := by
  constructor
  · intro h
    rw [exactInteger?] at h
    split at h
    · rename_i d hd
      split at h
      · rename_i n hn
        split at h
        · rename_i hle
          exact ⟨d, n, hd, hn, hle, (Option.some.inj h).symm⟩
        · cases h
      · cases h
    · cases h
  · rintro ⟨d, n, hd, hn, hle, rfl⟩
    rw [exactInteger?, hd]
    simp only [hn, if_pos hle]

/-- The double of the integer that a double is, unless that is zero. -/
theorem ofInt_of_exactInteger? {i : Int} (h : exactInteger? x = some i) (hi : i ≠ 0) :
    ofInt i = x := by
  obtain ⟨d, n, hd, hn, hle, rfl⟩ := exactInteger?_eq_some_iff.mp h
  have hzero : n ≠ 0 := by
    rintro rfl
    exact hi (by split <;> rfl)
  have hnegative : decide ((if d.negative then -(n : Int) else n) < 0) = d.negative := by
    cases d.negative
    · exact decide_eq_false (by simp)
    · refine decide_eq_true ?_
      simp only [if_true]
      omega
  have habs : (if d.negative then -(n : Int) else n).natAbs = n := by
    split <;> omega
  have hbits := nearestBits_of_wholeMagnitude? (normal_of_parts hd) hn hzero hle
  rw [ofInt, ofRatio, hnegative, habs, hbits, ← toNat_toBits_of_parts hd, UInt64.ofNat_toNat]
  exact Float.ofBits_toBits x

/-- A finite double is zero as an integer when its mantissa is zero. -/
theorem exactInteger?_eq_zero_iff (h : parts x = .finite d) :
    exactInteger? x = some 0 ↔ d.mantissa = 0 := by
  have hpow := (Nat.two_pow_pos d.exponent.toNat).ne'
  rw [exactInteger?_eq_some_iff]
  constructor
  · rintro ⟨d', n, hd, hn, -, hzero⟩
    rw [h] at hd
    cases hd
    have hn0 : n = 0 := by split at hzero <;> omega
    rw [wholeMagnitude?_eq_some_iff, hn0, Nat.zero_mul, eq_comm, Nat.mul_eq_zero] at hn
    exact hn.resolve_right hpow
  · intro hm
    refine ⟨d, 0, h, wholeMagnitude?_eq_some_iff.mpr ?_, Nat.zero_le _, ?_⟩
    · rw [hm, Nat.zero_mul, Nat.zero_mul]
    · split <;> rfl

end RuleLang.Number
