import RuleLang.Proofs.Number.Grammar
import RuleLang.Proofs.Number.Undefined
import RuleLang.Value.Coercion

/-!
# Which texts are numbers

A text goes through several readers before it is a number: blanks are taken off, a prefix is looked for,
two words are compared, letters are refused, and the common notation is read, which knows more words than
the grammar has. Together they accept just the grammar.

* `Number.isNaN_radixValue_iff`: integers with a prefix.
* `Number.isNaN_readCommon_iff`: the common notation behind the refusal of letters.
* `Number.isNaN_readTrimmed_iff`: a text without blanks at its ends.
* `Value.isNaN_toNumber_string_iff`: a text.
-/

namespace RuleLang.Number

variable {cs digits : List Char} {c : Char}

/-- What is not a number is the answer exactly where there is no number. -/
theorem isNaN_nan_iff {P : Prop} (h : ¬ P) : nan.isNaN = false ↔ P := by
  rw [isNaN_nan]
  exact iff_of_false Bool.false_ne_true.symm h

/-! ### Integers with a prefix -/

/-- A number in another base begins with a zero and the mark of the base. -/
theorem radixPrefix?_eq_some_iff {base : Nat} :
    radixPrefix? cs = some (base, digits) ↔
      ∃ mark, (base, mark) ∈ radixMarks ∧ cs = '0' :: mark :: digits := by
  constructor
  · intro h
    rw [radixPrefix?.eq_def] at h
    split at h
    · rename_i mark rest
      split at h
      · rename_i hmark
        cases h
        rcases hmark with rfl | rfl
        all_goals exact ⟨_, by decide, rfl⟩
      · split at h
        · rename_i hmark
          cases h
          rcases hmark with rfl | rfl
          all_goals exact ⟨_, by decide, rfl⟩
        · split at h
          · rename_i hmark
            cases h
            rcases hmark with rfl | rfl
            all_goals exact ⟨_, by decide, rfl⟩
          · cases h
    · cases h
  · rintro ⟨mark, hmark, rfl⟩
    simp only [radixMarks, List.mem_cons, Prod.mk.injEq, List.not_mem_nil, or_false] at hmark
    rcases hmark with ⟨rfl, rfl⟩ | ⟨rfl, rfl⟩ | ⟨rfl, rfl⟩ | ⟨rfl, rfl⟩ | ⟨rfl, rfl⟩ | ⟨rfl, rfl⟩
    all_goals rfl

/-- The base of a prefix is a finite number. -/
theorem exists_unpack_ofInt {base : Nat} {mark : Char} (h : (base, mark) ∈ radixMarks) :
    ∃ m e hm, (ofInt base).toModel.unpack = .finite .positive m e hm := by
  simp only [radixMarks, List.mem_cons, Prod.mk.injEq, List.not_mem_nil, or_false] at h
  rcases h with ⟨rfl, rfl⟩ | ⟨rfl, rfl⟩ | ⟨rfl, rfl⟩ | ⟨rfl, rfl⟩ | ⟨rfl, rfl⟩ | ⟨rfl, rfl⟩
  all_goals exact ⟨Nat.pow 2 52, _, by decide, rfl⟩

/-- One more digit after those that were read. -/
def radixStep (base : Nat) (x? : Option Float) (c : Char) : Option Float :=
  match x?, digitValue? c with
  | some x, some d => if d < base then some (x * ofInt base + ofInt d) else none
  | _, _ => none

/-- The value of digits in a base is taken up digit by digit, and undefined if one is foreign to the base.
-/
theorem radixValue_eq (base : Nat) (digits : List Char) :
    radixValue base digits = (digits.foldl (radixStep base) (some (ofInt 0))).getD nan := rfl

/-- Once a digit was foreign, the value stays undefined. -/
theorem foldl_radixStep_none (base : Nat) (digits : List Char) :
    digits.foldl (radixStep base) none = none := by
  induction digits with
  | nil => rfl
  | cons c digits ih => exact ih

/-- Digits are added up to a number that is not negative, if all of them are digits of the base. -/
theorem foldl_radixStep {base : Nat} {mark : Char} (hmark : (base, mark) ∈ radixMarks) {x : Float}
    (hx : sign? x.toModel.unpack = some .positive) :
    ((∀ c ∈ digits, c ∈ digitsBelow base) ∧
        ∃ y, digits.foldl (radixStep base) (some x) = some y ∧
          sign? y.toModel.unpack = some .positive) ∨
      (¬ ∀ c ∈ digits, c ∈ digitsBelow base) ∧ digits.foldl (radixStep base) (some x) = none := by
  have hbase : base ≤ 16 := by
    have hall : radixMarks.all fun pair => pair.1 ≤ 16 := by decide
    exact of_decide_eq_true (List.all_eq_true.mp hall _ hmark)
  induction digits generalizing x with
  | nil => exact .inl ⟨nofun, x, rfl, hx⟩
  | cons c digits ih =>
      rw [List.foldl_cons, List.forall_mem_cons]
      by_cases hc : c ∈ digitsBelow base
      · obtain ⟨d, hd, hlt⟩ := (exists_digitValue?_iff hbase).mpr hc
        obtain ⟨m, e, hm, hunpack⟩ := exists_unpack_ofInt hmark
        have hstep : radixStep base (some x) c = some (x * ofInt base + ofInt d) := by
          simp only [radixStep, hd, if_pos hlt]
        have hnext : sign? (x * ofInt base + ofInt d).toModel.unpack = some .positive := by
          refine sign?_add (sign?_mul hx hunpack) ?_
          rw [ofInt, sign?_ofRatio]
          rfl
        simp only [hstep, hc, true_and]
        exact ih hnext
      · have hstep : radixStep base (some x) c = none := by
          cases hd : digitValue? c with
          | none => simp only [radixStep, hd]
          | some d =>
              have hlt : ¬ d < base := fun hlt => hc ((exists_digitValue?_iff hbase).mp ⟨d, hd, hlt⟩)
              simp only [radixStep, hd, if_neg hlt]
        rw [hstep, foldl_radixStep_none]
        exact .inr ⟨fun h => hc h.1, rfl⟩

/-- Digits in a base stand for a number, if all of them are digits of that base. -/
theorem isNaN_radixValue_iff {base : Nat} {mark : Char} (hmark : (base, mark) ∈ radixMarks) :
    (radixValue base digits).isNaN = false ↔ ∀ c ∈ digits, c ∈ digitsBelow base := by
  have hzero : sign? (ofInt 0).toModel.unpack = some .positive := sign?_ofRatio _ _ _
  rw [radixValue_eq]
  rcases foldl_radixStep hmark hzero with ⟨hdigits, y, hy, hsign⟩ | ⟨hdigits, hnone⟩
  · rw [hy]
    exact iff_of_true (isNaN_eq_false_iff.mpr ⟨_, hsign⟩) hdigits
  · rw [hnone, Option.getD_none]
    exact isNaN_nan_iff hdigits

/-! ### The common notation -/

/-- A decimal has no foreign letters. -/
theorem any_isForeignLetter_of_isDecimal (h : IsDecimal cs) : cs.any isForeignLetter = false := by
  have hnone : (['+', '-', '.', 'e', 'E'] ++ digitsBelow 10).all fun c => !isForeignLetter c := by decide
  rw [List.any_eq_false]
  intro c hc
  simpa using List.all_eq_true.mp hnone c (mem_of_isDecimal h c hc)

/-- A letter that stands for `i` or `n` in any case is in no decimal. -/
theorem isForeignLetter_of_toLower {d : Char} (hd : d ∈ ['i', 'n']) (h : c.toLower = d) :
    isForeignLetter c := by
  have hletters : ['i', 'n'].all fun d => d.isAlpha && d ≠ 'e'.toLower && d ≠ 'E'.toLower := by decide
  have hletter := List.all_eq_true.mp hletters d hd
  simp only [Bool.and_eq_true, decide_eq_true_eq, ← h, Char.isAlpha_toLower_eq_isAlpha] at hletter
  obtain ⟨⟨halpha, he⟩, hE⟩ := hletter
  have hne : c ≠ 'e' := fun hc => he (congrArg Char.toLower hc)
  have hne' : c ≠ 'E' := fun hc => hE (congrArg Char.toLower hc)
  simp [isForeignLetter, halpha, hne, hne']

/-- The words of the common notation have letters that no decimal has. -/
theorem map_toLower_ne (word : List Char) {d : Char} (hd : d ∈ ['i', 'n']) (hword : d ∈ word)
    (h : cs.any isForeignLetter = false) : (takeSign cs).2.map Char.toLower ≠ word := by
  rintro rfl
  obtain ⟨c, hc, hlower⟩ := List.mem_map.mp hword
  obtain ⟨sign, -, hcs⟩ := exists_sign cs
  rw [List.any_eq_false] at h
  refine h c ?_ (isForeignLetter_of_toLower hd hlower)
  rw [hcs]
  exact List.mem_append_right _ hc

/-- A text without foreign letters is a number exactly if it is a decimal. -/
theorem isNaN_readCommon_iff (h : cs.any isForeignLetter = false) :
    (readCommon cs).isNaN = false ↔ IsDecimal cs := by
  have hinf := map_toLower_ne "inf".toList (d := 'i') (by decide) (by decide) h
  have hinfinity := map_toLower_ne "infinity".toList (d := 'i') (by decide) (by decide) h
  have hnan := map_toLower_ne "nan".toList (d := 'n') (by decide) (by decide) h
  rw [← isSome_readDecimal?_iff, readCommon]
  simp only [hinf, hinfinity, hnan, or_self, if_false]
  cases readDecimal? cs with
  | none => exact isNaN_nan_iff Bool.false_ne_true
  | some l =>
      refine iff_of_true (isNaN_eq_false_iff.mpr ?_) rfl
      exact ⟨_, sign?_ofDecimal _ _ _⟩

/-! ### Texts -/

/-- A text with a prefix is an integer in the base of the prefix or nothing. -/
theorem isNumeric_radix_iff {base : Nat} {mark : Char} (hmark : (base, mark) ∈ radixMarks) :
    IsNumeric ('0' :: mark :: digits) ↔ IsNatural base digits := by
  constructor
  · intro h
    generalize htext : '0' :: mark :: digits = cs at h
    cases h with
    | blank => cases htext
    | @infinity word hword =>
        simp only [List.mem_cons, List.not_mem_nil, or_false] at hword
        rcases hword with rfl | rfl | rfl
        all_goals exact absurd (List.cons.inj htext).1 (by decide)
    | @radix base' mark' digits' hmark' h =>
        cases htext
        have hbase : radixPrefix? ('0' :: mark :: digits) = some (base, digits) :=
          radixPrefix?_eq_some_iff.mpr ⟨mark, hmark, rfl⟩
        rw [radixPrefix?_eq_some_iff.mpr ⟨mark, hmark', rfl⟩] at hbase
        cases hbase
        exact h
    | decimal h =>
        have hmarks : radixMarks.all fun pair => pair.2 ∉ ['+', '-', '.', 'e', 'E'] ++ digitsBelow 10 := by
          decide
        refine absurd (mem_of_isDecimal h mark ?_) (of_decide_eq_true (List.all_eq_true.mp hmarks _ hmark))
        rw [← htext]
        exact List.mem_cons_of_mem _ List.mem_cons_self
  · exact .radix hmark

/-- What has no prefix and is none of the words is a decimal or nothing. -/
theorem isNumeric_iff_isDecimal (hne : cs ≠ []) (hradix : radixPrefix? cs = none)
    (hwords : ∀ word ∈ ["Infinity", "+Infinity", "-Infinity"], cs ≠ word.toList) :
    IsNumeric cs ↔ IsDecimal cs := by
  constructor
  · intro h
    cases h with
    | blank => exact absurd rfl hne
    | infinity h => exact absurd rfl (hwords _ h)
    | radix hmark h =>
        rw [radixPrefix?_eq_some_iff.mpr ⟨_, hmark, rfl⟩] at hradix
        cases hradix
    | decimal h => exact h
  · exact .decimal

/-- A text without blanks at its ends stands for a number exactly when it is of the grammar. -/
theorem isNaN_readTrimmed_iff : (readTrimmed cs).isNaN = false ↔ IsNumeric cs := by
  have hinfinity (negative : Bool) : (infinity negative).isNaN = false :=
    isNaN_eq_false_iff.mpr ⟨_, sign?_infinity negative⟩
  rw [readTrimmed]
  split
  · rename_i hempty
    rw [List.isEmpty_iff.mp hempty]
    exact iff_of_true (isNaN_eq_false_iff.mpr ⟨_, sign?_ofRatio _ _ _⟩) .blank
  · rename_i hempty
    cases hradix : radixPrefix? cs with
    | some found =>
        obtain ⟨base, digits⟩ := found
        obtain ⟨mark, hmark, rfl⟩ := radixPrefix?_eq_some_iff.mp hradix
        rw [isNumeric_radix_iff hmark, readRadix?, hradix]
        cases digits with
        | nil => exact isNaN_nan_iff fun h => h.1 rfl
        | cons c digits =>
            rw [IsNatural]
            simp only [isNaN_radixValue_iff hmark, ne_eq, reduceCtorEq, not_false_eq_true, true_and]
    | none =>
        rw [readRadix?, hradix]
        dsimp only
        split
        · rename_i hword
          refine iff_of_true (hinfinity false) ?_
          rcases hword with rfl | rfl
          · exact .infinity (by decide)
          · exact .infinity (by decide)
        · rename_i hpositive
          split
          · rename_i hnegative
            rw [hnegative]
            exact iff_of_true (hinfinity true) (.infinity (by decide))
          · rename_i hnegative
            have hdecimal : IsNumeric cs ↔ IsDecimal cs := by
              refine isNumeric_iff_isDecimal (by simpa using hempty) hradix ?_
              simp only [List.forall_mem_cons]
              obtain ⟨hplain, hplus⟩ := not_or.mp hpositive
              exact ⟨hplain, hplus, hnegative, List.forall_mem_nil _⟩
            rw [hdecimal]
            split
            · rename_i hforeign
              refine isNaN_nan_iff fun h => ?_
              rw [any_isForeignLetter_of_isDecimal h] at hforeign
              cases hforeign
            · rename_i hforeign
              exact isNaN_readCommon_iff (Bool.eq_false_iff.mpr hforeign)

end RuleLang.Number

namespace RuleLang.Value

/-- A text stands for a number exactly when it is of the grammar, but for blanks at its ends. -/
theorem isNaN_toNumber_string_iff (s : String) :
    (string s).toNumber.isNaN = false ↔ Number.IsNumeric (Text.trim s).toList := by
  rw [Text.trim, String.toList_ofList]
  exact Number.isNaN_readTrimmed_iff

end RuleLang.Value
