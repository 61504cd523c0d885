import Mathlib
import RuleLang.Number.Reading

/-!
# The grammar of numeric texts

The texts that stand for numbers, as rules that mention no reader: blank text, the words for infinity,
integers with a prefix, and decimals. The reader of decimals accepts just the decimals of the grammar.

* `Number.IsNatural`: the digits of a base.
* `Number.IsDecimal`, `Number.IsNumeric`: decimals and all numeric texts.
* `Number.exists_digitValue?_iff`: which characters are digits.
* `Number.isSome_readDecimal?_iff`: what is read as a decimal.
-/

namespace RuleLang.Number

variable {cs rest digits : List Char} {c : Char}

/-! ### The grammar -/

/-- An optional sign. -/
inductive IsSign : List Char → Prop
  | none : IsSign []
  | plus : IsSign ['+']
  | minus : IsSign ['-']

/-- The characters of the digits below a base. -/
def digitsBelow (base : Nat) : List Char :=
  ['0', '1', '2', '3', '4', '5', '6', '7', '8', '9', 'a', 'b', 'c', 'd', 'e', 'f'].take base ++
    ['A', 'B', 'C', 'D', 'E', 'F'].take (base - 10)

/-- At least one digit and nothing else. -/
def IsNatural (base : Nat) (cs : List Char) : Prop :=
  cs ≠ [] ∧ ∀ c ∈ cs, c ∈ digitsBelow base

/-- Digits with an optional point, at least one of them before or after it. -/
inductive IsMantissa : List Char → Prop
  | whole {digits : List Char} (h : IsNatural 10 digits) : IsMantissa digits
  | pointed {whole fraction : List Char} (h : IsNatural 10 (whole ++ fraction)) :
      IsMantissa (whole ++ '.' :: fraction)

/-- Nothing, or a letter, an optional sign and at least one digit. -/
inductive IsExponent : List Char → Prop
  | none : IsExponent []
  | some {letter : Char} {sign digits : List Char} (hletter : letter ∈ ['e', 'E']) (hsign : IsSign sign)
      (hdigits : IsNatural 10 digits) : IsExponent (letter :: (sign ++ digits))

/-- A decimal. -/
inductive IsDecimal : List Char → Prop
  | mk {sign mantissa exponent : List Char} (hsign : IsSign sign) (hmantissa : IsMantissa mantissa)
      (hexponent : IsExponent exponent) : IsDecimal (sign ++ (mantissa ++ exponent))

/-- The letters that announce a base. -/
def radixMarks : List (Nat × Char) :=
  [(16, 'x'), (16, 'X'), (8, 'o'), (8, 'O'), (2, 'b'), (2, 'B')]

/-- The texts that stand for numbers, without blanks at their ends. -/
inductive IsNumeric : List Char → Prop
  | blank : IsNumeric []
  | infinity {word : String} (h : word ∈ ["Infinity", "+Infinity", "-Infinity"]) : IsNumeric word.toList
  | radix {base : Nat} {mark : Char} {digits : List Char} (hmark : (base, mark) ∈ radixMarks)
      (h : IsNatural base digits) : IsNumeric ('0' :: mark :: digits)
  | decimal {cs : List Char} (h : IsDecimal cs) : IsNumeric cs

/-! ### Digits -/

/-- The digits are those below ten. -/
theorem isDigit_iff : c.isDigit ↔ c ∈ digitsBelow 10 := by
  constructor
  · intro h
    simp only [Char.isDigit, Bool.and_eq_true, decide_eq_true_eq, ge_iff_le, UInt32.le_iff_toNat_le] at h
    obtain ⟨hlow, hhigh⟩ : 48 ≤ c.toNat ∧ c.toNat ≤ 57 := h
    rw [← Char.ofNat_toNat c]
    generalize c.toNat = code at hlow hhigh
    interval_cases code <;> decide
  · have hdigits : (digitsBelow 10).all Char.isDigit := by decide
    exact List.all_eq_true.mp hdigits c

/-- The characters of the digits below a base are those whose value is below it. -/
theorem exists_digitValue?_iff {base : Nat} (hbase : base ≤ 16) :
    (∃ d, digitValue? c = some d ∧ d < base) ↔ c ∈ digitsBelow base := by
  constructor
  · rintro ⟨d, hd, hlt⟩
    have hle {a b : Char} : a ≤ b ↔ a.toNat ≤ b.toNat := UInt32.le_iff_toNat_le
    have hcode {first : Nat} (h : first ≤ c.toNat) : c = Char.ofNat (first + (c.toNat - first)) := by
      rw [Nat.add_sub_cancel' h, Char.ofNat_toNat]
    have hfirst : ∀ base ≤ 16, ∀ d < 10, d < base → Char.ofNat (48 + d) ∈ digitsBelow base := by
      decide +kernel
    have hsmall : ∀ base ≤ 16, ∀ d < 6, d + 10 < base → Char.ofNat (97 + d) ∈ digitsBelow base := by
      decide +kernel
    have hlarge : ∀ base ≤ 16, ∀ d < 6, d + 10 < base → Char.ofNat (65 + d) ∈ digitsBelow base := by
      decide +kernel
    simp only [digitValue?, hle, Char.reduceToNat] at hd
    split at hd
    · rename_i hrange
      cases hd
      rw [hcode hrange.1]
      exact hfirst base hbase _ (by omega) hlt
    · split at hd
      · rename_i hrange
        cases hd
        rw [hcode hrange.1]
        exact hsmall base hbase _ (by omega) hlt
      · split at hd
        · rename_i hrange
          cases hd
          rw [hcode hrange.1]
          exact hlarge base hbase _ (by omega) hlt
        · cases hd
  · have hdigits : ∀ base ≤ 16, (digitsBelow base).all fun c => (digitValue? c).any (· < base) := by
      decide +kernel
    intro hc
    have hvalue := List.all_eq_true.mp (hdigits base hbase) c hc
    cases hd : digitValue? c with
    | none => simp [hd] at hvalue
    | some d => exact ⟨d, rfl, by simpa [hd] using hvalue⟩

/-! ### Decimals -/

/-- A text is a sign, or none, and what is left after it was taken. -/
theorem exists_sign (cs : List Char) : ∃ sign, IsSign sign ∧ cs = sign ++ (takeSign cs).2 := by
  fun_cases takeSign cs with
  | case1 rest => exact ⟨['-'], .minus, rfl⟩
  | case2 rest => exact ⟨['+'], .plus, rfl⟩
  | case3 => exact ⟨[], .none, rfl⟩

/-- A sign is taken off what has none itself. -/
theorem takeSign_append {sign : List Char} (h : IsSign sign) (hcs : ∀ c ∈ cs.head?, c ∉ ['+', '-']) :
    (takeSign (sign ++ cs)).2 = cs := by
  cases h with
  | plus => rfl
  | minus => rfl
  | none =>
      fun_cases takeSign cs with
      | case1 rest => exact absurd (by decide) (hcs '-' rfl)
      | case2 rest => exact absurd (by decide) (hcs '+' rfl)
      | case3 => rfl

/-- Digits end where something else begins. -/
theorem span_digits (hdigits : ∀ c ∈ digits, c ∈ digitsBelow 10)
    (hrest : ∀ c ∈ rest.head?, c ∉ digitsBelow 10) :
    (digits ++ rest).takeWhile Char.isDigit = digits ∧ (digits ++ rest).dropWhile Char.isDigit = rest := by
  have hall : ∀ c ∈ digits, c.isDigit := fun c hc => isDigit_iff.mpr (hdigits c hc)
  rw [List.takeWhile_append_of_pos hall, List.dropWhile_append_of_pos hall]
  cases rest with
  | nil => simp
  | cons c rest =>
      have hc : ¬ c.isDigit := fun hc => hrest c rfl (isDigit_iff.mp hc)
      simp [hc]

/-- A natural number does not start with a sign. -/
theorem IsNatural.head (h : IsNatural 10 cs) : ∀ c ∈ cs.head?, c ∉ ['+', '-'] := by
  have hdigits : (digitsBelow 10).all (· ∉ ['+', '-']) := by decide
  intro c hc
  exact of_decide_eq_true (List.all_eq_true.mp hdigits c (h.2 c (List.mem_of_mem_head? hc)))

/-- An exponent starts with its letter, and a natural number follows the sign. -/
theorem isSome_readExponent?_cons :
    (readExponent? (c :: rest)).isSome ↔ c ∈ ['e', 'E'] ∧ IsNatural 10 (takeSign rest).2 := by
  have hdigits : ((takeSign rest).2.isEmpty || !(takeSign rest).2.all Char.isDigit) = true ↔
      ¬ IsNatural 10 (takeSign rest).2 := by
    rw [← Bool.not_eq_false, Bool.or_eq_false_iff, Bool.not_eq_false', List.all_eq_true,
      List.isEmpty_eq_false_iff, IsNatural]
    simp only [isDigit_iff]
  rw [readExponent?]
  simp only [List.mem_cons, List.not_mem_nil, or_false]
  split
  · rename_i hc
    split
    · rename_i hnot
      simp [hdigits.mp hnot]
    · rename_i hnatural
      simp [hc, not_not.mp (mt hdigits.mpr hnatural)]
  · rename_i hc
    simp [hc]

/-- What is read as an exponent is one. -/
theorem isSome_readExponent?_iff : (readExponent? cs).isSome ↔ IsExponent cs := by
  cases cs with
  | nil => exact iff_of_true rfl .none
  | cons c rest =>
      rw [isSome_readExponent?_cons]
      constructor
      · rintro ⟨hc, hdigits⟩
        obtain ⟨sign, hsign, hrest⟩ := exists_sign rest
        rw [hrest]
        exact .some hc hsign hdigits
      · intro h
        cases h with
        | some hletter hsign hdigits =>
            rw [takeSign_append hsign hdigits.head]
            exact ⟨hletter, hdigits⟩

/-- An exponent begins with its letter. -/
theorem IsExponent.head (h : IsExponent cs) : ∀ c ∈ cs.head?, c ∈ ['e', 'E'] := by
  cases h with
  | none => nofun
  | some hletter _ _ =>
      rintro c ⟨⟩
      exact hletter

/-- A mantissa does not begin with a sign. -/
theorem IsMantissa.head_append (h : IsMantissa cs) : ∀ c ∈ (cs ++ rest).head?, c ∉ ['+', '-'] := by
  cases h with
  | whole h =>
      rw [List.head?_append_of_ne_nil cs h.1]
      exact h.head
  | @pointed whole fraction h =>
      cases whole with
      | nil =>
          rintro c ⟨⟩
          decide
      | cons d whole => exact h.head

/-- Without a point there is no fraction. -/
theorem takeFraction_of_no_point (h : '.' ∉ cs.head?) : takeFraction cs = ([], cs) := by
  fun_cases takeFraction cs with
  | case1 rest => exact absurd rfl h
  | case2 => rfl

/-- Digits with an optional point are split at the point. -/
theorem takeFraction_append (hmantissa : IsMantissa cs) (hrest : IsExponent rest) :
    (takeFraction ((cs ++ rest).dropWhile Char.isDigit)).2 = rest ∧
      (cs ++ rest).takeWhile Char.isDigit ++
        (takeFraction ((cs ++ rest).dropWhile Char.isDigit)).1 ≠ [] := by
  have hend : ∀ c ∈ rest.head?, c ∉ digitsBelow 10 := by
    have hletters : ['e', 'E'].all (· ∉ digitsBelow 10) := by decide
    exact fun c hc => of_decide_eq_true (List.all_eq_true.mp hletters c (hrest.head c hc))
  cases hmantissa with
  | whole h =>
      obtain ⟨htake, hdrop⟩ := span_digits h.2 hend
      have hpoint : '.' ∉ rest.head? := fun hpoint => absurd (hrest.head '.' hpoint) (by decide)
      rw [htake, hdrop, takeFraction_of_no_point hpoint, List.append_nil]
      exact ⟨rfl, h.1⟩
  | @pointed whole fraction h =>
      obtain ⟨hwhole, hfraction⟩ := List.forall_mem_append.mp h.2
      have hpoint : ∀ c ∈ ('.' :: (fraction ++ rest)).head?, c ∉ digitsBelow 10 := by
        rintro c ⟨⟩
        decide
      obtain ⟨htake, hdrop⟩ := span_digits hwhole hpoint
      obtain ⟨htake', hdrop'⟩ := span_digits hfraction hend
      rw [List.append_assoc, List.cons_append, htake, hdrop, takeFraction, htake', hdrop']
      exact ⟨rfl, h.1⟩

/-- What is in front of an exponent, when there is a digit. -/
theorem exists_mantissa
    (hne : cs.takeWhile Char.isDigit ++ (takeFraction (cs.dropWhile Char.isDigit)).1 ≠ []) :
    ∃ mantissa, IsMantissa mantissa ∧
      cs = mantissa ++ (takeFraction (cs.dropWhile Char.isDigit)).2 := by
  have hdigits (cs : List Char) : ∀ c ∈ cs.takeWhile Char.isDigit, c ∈ digitsBelow 10 :=
    fun c hc => isDigit_iff.mp (List.mem_takeWhile_imp hc)
  have hcs := List.takeWhile_append_dropWhile (p := Char.isDigit) (l := cs)
  generalize cs.dropWhile Char.isDigit = dropped at hne hcs
  by_cases hpoint : '.' ∈ dropped.head?
  · obtain ⟨following, rfl⟩ := List.head?_eq_some_iff.mp hpoint
    refine ⟨_, .pointed ⟨hne, List.forall_mem_append.mpr ⟨hdigits cs, hdigits following⟩⟩, ?_⟩
    rw [takeFraction, List.append_assoc, List.cons_append, List.takeWhile_append_dropWhile, hcs]
  · rw [takeFraction_of_no_point hpoint] at hne ⊢
    rw [List.append_nil] at hne
    exact ⟨_, .whole ⟨hne, hdigits cs⟩, hcs.symm⟩

/-- What is read as a decimal is one. -/
theorem isSome_readDecimal?_iff : (readDecimal? cs).isSome ↔ IsDecimal cs := by
  have hread : (readDecimal? cs).isSome ↔
      (takeSign cs).2.takeWhile Char.isDigit ++
          (takeFraction ((takeSign cs).2.dropWhile Char.isDigit)).1 ≠ [] ∧
        IsExponent (takeFraction ((takeSign cs).2.dropWhile Char.isDigit)).2 := by
    rw [← isSome_readExponent?_iff, readDecimal?]
    dsimp only
    split
    · rename_i hempty
      simp_all
    · rename_i hempty
      split
      · rename_i e he
        simp_all
      · rename_i he
        simp_all
  rw [hread]
  constructor
  · rintro ⟨hne, hexponent⟩
    obtain ⟨sign, hsign, hcs⟩ := exists_sign cs
    obtain ⟨mantissa, hmantissa, hunsigned⟩ := exists_mantissa hne
    rw [hcs, hunsigned]
    exact .mk hsign hmantissa hexponent
  · rintro ⟨hsign, hmantissa, hexponent⟩
    obtain ⟨hrest, hne⟩ := takeFraction_append hmantissa hexponent
    rw [takeSign_append hsign hmantissa.head_append, hrest]
    exact ⟨hne, hexponent⟩

/-- The characters of decimals. -/
theorem mem_of_isDecimal (h : IsDecimal cs) :
    ∀ c ∈ cs, c ∈ ['+', '-', '.', 'e', 'E'] ++ digitsBelow 10 := by
  have hsigned {sign : List Char} (hsign : IsSign sign) : ∀ c ∈ sign, c ∈ ['+', '-'] := by
    cases hsign <;> simp
  have hdigit {c : Char} (hc : c ∈ digitsBelow 10) : c ∈ ['+', '-', '.', 'e', 'E'] ++ digitsBelow 10 :=
    List.mem_append_right _ hc
  obtain ⟨hsign, hmantissa, hexponent⟩ := h
  simp only [List.forall_mem_append]
  refine ⟨fun c hc => ?_, ?_, ?_⟩
  · have hsigns : ['+', '-'] ⊆ ['+', '-', '.', 'e', 'E'] ++ digitsBelow 10 := by decide
    exact hsigns (hsigned hsign c hc)
  · cases hmantissa with
    | whole h => exact fun c hc => hdigit (h.2 c hc)
    | pointed h =>
        obtain ⟨hwhole, hfraction⟩ := List.forall_mem_append.mp h.2
        rw [List.forall_mem_append, List.forall_mem_cons]
        exact ⟨fun c hc => hdigit (hwhole c hc), by decide, fun c hc => hdigit (hfraction c hc)⟩
  · cases hexponent with
    | none => nofun
    | some hletter hsign hdigits =>
        have hletters : ['e', 'E'] ⊆ ['+', '-', '.', 'e', 'E'] ++ digitsBelow 10 := by decide
        have hsigns : ['+', '-'] ⊆ ['+', '-', '.', 'e', 'E'] ++ digitsBelow 10 := by decide
        rw [List.forall_mem_cons, List.forall_mem_append]
        exact ⟨hletters hletter, fun c hc => hsigns (hsigned hsign c hc),
          fun c hc => hdigit (hdigits.2 c hc)⟩

end RuleLang.Number
