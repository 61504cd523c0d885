import RuleLang.Proofs.Number.Words
import RuleLang.Value.Operation

/-!
# Values as words

Bit operations work on the words of their operands, and what they answer is a word again, as a number.

* `Value.IsSigned`, `Value.IsUnsigned`: numbers of words.
* `Value.toInt_shiftLeft`, `Value.toInt_shiftRight`, `Value.toNat_shiftRight`: shifts as arithmetic.
* `Value.words_exact`: the words of values, and what the bit operations answer.
-/

namespace RuleLang.Value

variable {a b v : Value}

/-! ### Words of values -/

/-- A signed word is congruent to the whole part of the number. -/
theorem toInt32_modEq {q : ℚ} (h : Number.rational? v.toNumber = some q) :
    v.toInt32.toInt ≡ Number.wholePart q [ZMOD 2 ^ 32] := by
  rw [toInt32, Number.toInt_toInt32, Number.toNat_toUInt32 h]
  exact Int.bmod_emod.trans (Int.emod_emod_of_dvd _ (dvd_refl _))

/-! ### Numbers of words -/

/-- The number of a signed word. -/
def IsSigned (v : Value) : Prop :=
  ∃ w : Int32, v = number (Number.ofInt32 w)

/-- The number of an unsigned word. -/
def IsUnsigned (v : Value) : Prop :=
  ∃ w : UInt32, v = number (Number.ofUInt32 w)

/-- Zero in bit operations. -/
theorem toInt32_zero : (number (Number.ofInt 0)).toInt32 = 0 :=
  Number.toInt32_ofInt32 0

/-- The number zero becomes the word zero. -/
theorem toUInt32_zero : (number (Number.ofInt 0)).toUInt32 = 0 :=
  Number.toUInt32_ofUInt32 0

/-- The number of a signed word stays when zero is added bit by bit. -/
theorem IsSigned.bitOr_zero (h : IsSigned v) : BinaryOp.bitOr.apply v (number (Number.ofInt 0)) = v := by
  obtain ⟨w, rfl⟩ := h
  have hword : (number (Number.ofInt32 w)).toInt32 = w := Number.toInt32_ofInt32 w
  simp only [BinaryOp.apply, hword, toInt32_zero, Int32.or_zero]

/-- The number of an unsigned word stays when it is shifted by nothing. -/
theorem IsUnsigned.shift_zero (h : IsUnsigned v) :
    BinaryOp.shiftRightUnsigned.apply v (number (Number.ofInt 0)) = v := by
  obtain ⟨w, rfl⟩ := h
  have hword : (number (Number.ofUInt32 w)).toUInt32 = w := Number.toUInt32_ofUInt32 w
  simp only [BinaryOp.apply, hword, toUInt32_zero, UInt32.shiftRight_zero]

/-! ### Shifts -/

/-- A shift to the left multiplies by a power of two, as far as words go. -/
theorem toInt_shiftLeft (a b : UInt32) :
    (a <<< b).toInt32.toInt = (a.toInt32.toInt * 2 ^ (b.toNat % 32)).bmod (2 ^ 32) := by
  have hbits (w : UInt32) : w.toInt32.toInt = (w.toNat : ℤ).bmod (2 ^ 32) :=
    BitVec.toInt_eq_toNat_bmod _
  have hmod (i : ℤ) : (i % 2 ^ 32).bmod (2 ^ 32) = i.bmod (2 ^ 32) := Int.emod_bmod _ _
  rw [hbits, hbits, UInt32.toNat_shiftLeft, Nat.shiftLeft_eq, Int.bmod_mul_bmod]
  push_cast
  exact hmod _

/-- A signed shift to the right divides by a power of two. -/
theorem toInt_shiftRight (a : Int32) (b : UInt32) :
    (a >>> (b % 32).toInt32).toInt = a.toInt / 2 ^ (b.toNat % 32) := by
  have hlt : (b % 32).toBitVec.toNat = b.toNat % 32 := UInt32.toNat_mod b 32
  have hmsb : (b % 32).toBitVec.msb = false := by
    rw [BitVec.msb_eq_false_iff_two_mul_lt, hlt]
    omega
  have hcount : ((b % 32).toBitVec.smod 32).toNat = b.toNat % 32 := by
    rw [BitVec.toNat_smod, hmsb, show (32 : BitVec 32).msb = false from rfl]
    change (b % 32).toBitVec.toNat % 32 = _
    rw [hlt, Nat.mod_mod]
  change (a.toBitVec.sshiftRight' ((b % 32).toBitVec.smod 32)).toInt = _
  rw [BitVec.sshiftRight', hcount, BitVec.toInt_sshiftRight, Int.shiftRight_eq_div_pow]
  rfl

/-- An unsigned shift to the right divides by a power of two. -/
theorem toNat_shiftRight (a b : UInt32) : (a >>> b).toNat = a.toNat / 2 ^ (b.toNat % 32) := by
  rw [UInt32.toNat_shiftRight, Nat.shiftRight_eq_div_pow]

/-- The words of a value are the whole part of its number, modulo the number of words: the unsigned one is
the remainder, the signed one is congruent to it and lies around zero, and what is not finite has the word
zero. Words are doubles exactly. So the bit operations answer with words, which a further operation with
zero leaves as they are, and a shift is a multiplication or division by a power of two, with an exponent
that counts modulo 32. -/
theorem words_exact :
    (∀ v : Value,
      (∀ q, Number.rational? v.toNumber = some q →
        (v.toUInt32.toNat : ℤ) = Number.wholePart q % 2 ^ 32 ∧
          v.toInt32.toInt ≡ Number.wholePart q [ZMOD 2 ^ 32]) ∧
      (v.toUInt32.toNat : ℤ) ∈ Set.Ico 0 (2 ^ 32) ∧ v.toInt32.toInt ∈ Set.Ico (-2 ^ 31) (2 ^ 31) ∧
      (v.toNumber.isFinite = false → v.toUInt32 = 0 ∧ v.toInt32 = 0)) ∧
    ((∀ w : Int32, Number.rational? (Number.ofInt32 w) = some (w.toInt : ℚ)) ∧
      ∀ w : UInt32, Number.rational? (Number.ofUInt32 w) = some (w.toNat : ℚ)) ∧
    (∀ a b : Value,
      (∀ op ∈ [BinaryOp.bitAnd, .bitOr, .bitXor, .shiftLeft, .shiftRight], (op.apply a b).IsSigned) ∧
      (UnaryOp.bitNot.apply a).IsSigned ∧ (BinaryOp.shiftRightUnsigned.apply a b).IsUnsigned) ∧
    (∀ v : Value, v.IsSigned → BinaryOp.bitOr.apply v (number (Number.ofInt 0)) = v) ∧
    (∀ v : Value, v.IsUnsigned → BinaryOp.shiftRightUnsigned.apply v (number (Number.ofInt 0)) = v) ∧
    ∀ a b : Value,
      BinaryOp.shiftLeft.apply a b = number (Number.ofInt32
        (Int32.ofInt (a.toInt32.toInt * 2 ^ (b.toUInt32.toNat % 32)))) ∧
      BinaryOp.shiftRight.apply a b = number (Number.ofInt32
        (Int32.ofInt (a.toInt32.toInt / 2 ^ (b.toUInt32.toNat % 32)))) ∧
      BinaryOp.shiftRightUnsigned.apply a b = number (Number.ofUInt32
        (UInt32.ofNat (a.toUInt32.toNat / 2 ^ (b.toUInt32.toNat % 32)))) := by
  refine ⟨fun v => ⟨fun q h => ⟨Number.toNat_toUInt32 h, toInt32_modEq h⟩, ?_, ?_, ?_⟩,
    ⟨fun w => Number.rational?_ofInt (Number.isSmall_toInt w),
      fun w => Number.rational?_ofInt (Number.isSmall_toNat w)⟩,
    fun a b => ⟨?_, ⟨_, rfl⟩, ⟨_, rfl⟩⟩, fun v => IsSigned.bitOr_zero, fun v => IsUnsigned.shift_zero,
    fun a b => ⟨?_, ?_, ?_⟩⟩
  · exact ⟨Int.natCast_nonneg _, by exact_mod_cast v.toUInt32.toNat_lt⟩
  · exact ⟨v.toInt32.le_toInt, v.toInt32.toInt_lt⟩
  · intro h
    rw [← Number.isSome_rational?, Option.isSome_eq_false_iff, Option.isNone_iff_eq_none] at h
    have hword : v.toUInt32 = 0 := Number.toUInt32_of_rational?_eq_none h
    refine ⟨hword, ?_⟩
    rw [toInt32, Number.toInt32, ← toUInt32, hword]
    rfl
  · simp only [List.forall_mem_cons]
    exact ⟨⟨_, rfl⟩, ⟨_, rfl⟩, ⟨_, rfl⟩, ⟨_, rfl⟩, ⟨_, rfl⟩, nofun⟩
  · refine congrArg (fun w => number (Number.ofInt32 w)) (Int32.toInt_inj.mp ?_)
    rw [toInt_shiftLeft, Int32.toInt_ofInt]
    rfl
  · refine congrArg (fun w => number (Number.ofInt32 w)) (Int32.toInt_inj.mp ?_)
    rw [← toInt_shiftRight, Int32.ofInt_toInt]
  · refine congrArg (fun w => number (Number.ofUInt32 w)) (UInt32.toNat_inj.mp ?_)
    rw [← toNat_shiftRight, UInt32.ofNat_toNat]

end RuleLang.Value

namespace RuleLang.Sample
open Value

/-- A negative number with a fraction, beyond the range of words. -/
def beyondWords : Value := .number (Number.ofRatio true 8589934597 2)

/-- The sample number is a negative one with a fraction. -/
theorem rational?_beyondWords : Number.rational? beyondWords.toNumber = some (-8589934597 / 2) := by
  refine Number.rational?_eq_some_iff.mpr ⟨⟨true, 4503599629991936, -20⟩, by rfl, ?_⟩
  rw [Number.Dyadic.toRat]
  norm_num

/-- The words of a negative number with a fraction, and those of infinity. -/
theorem words_exact_beyond :
    (beyondWords.toUInt32.toNat : ℤ) = 4294967294 ∧ beyondWords.toInt32.toInt = -2 ∧
      (number (Number.infinity true)).toUInt32 = 0 ∧
      BinaryOp.bitOr.apply (BinaryOp.shiftLeft.apply beyondWords beyondWords) (number (Number.ofInt 0)) =
        BinaryOp.shiftLeft.apply beyondWords beyondWords := by
  have hwhole : Number.wholePart (-8589934597 / 2) = -4294967298 := by
    rw [Number.wholePart, if_neg (by norm_num), Int.ceil_eq_iff]
    norm_num
  obtain ⟨hfinite, -, hbounds, -⟩ := words_exact.1 beyondWords
  obtain ⟨hunsigned, hsigned⟩ := hfinite _ rational?_beyondWords
  rw [hwhole] at hunsigned hsigned
  refine ⟨hunsigned, ?_, ?_, ?_⟩
  · obtain ⟨hle, hlt⟩ := hbounds
    have hmod : beyondWords.toInt32.toInt % 2 ^ 32 = -4294967298 % 2 ^ 32 := hsigned
    omega
  · exact ((words_exact.1 (number (Number.infinity true))).2.2.2 (by decide +kernel)).1
  · exact words_exact.2.2.2.1 _ ((words_exact.2.2.1 beyondWords beyondWords).1 _ (by simp))

end RuleLang.Sample
