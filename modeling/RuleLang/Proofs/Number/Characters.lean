import Mathlib.Tactic.IntervalCases
import RuleLang.Number.Text

/-!
# The characters of numbers

A number is written with few characters, whatever form it takes.

* `Number.characters`: digits, signs, the point, and the letters of exponents and of what is not finite.
* `Number.text_subset_characters`: the text of a number has no others.
-/

namespace RuleLang.Number

/-- The characters that numbers are written with. -/
def characters : List Char :=
  ['0', '1', '2', '3', '4', '5', '6', '7', '8', '9', '+', '-', '.', 'e', 'N', 'a', 'I', 'n', 'f', 'i', 't', 'y']

/-- Numbers are written with all digits. -/
theorem mem_characters_of_isDigit {c : Char} (h : c.isDigit = true) : c ∈ characters := by
  simp only [Char.isDigit, Bool.and_eq_true, decide_eq_true_eq, ge_iff_le, UInt32.le_iff_toNat_le] at h
  obtain ⟨hlow, hhigh⟩ : 48 ≤ c.toNat ∧ c.toNat ≤ 57 := h
  rw [← Char.ofNat_toNat c]
  generalize c.toNat = code at hlow hhigh
  interval_cases code <;> decide

/-- Natural numbers are written with digits. -/
theorem decimalDigits_subset_characters (n : Nat) : decimalDigits n ⊆ characters :=
  fun _ h => mem_characters_of_isDigit (Nat.isDigit_of_mem_toDigits (by decide) (by decide) h)

/-- Integers are written with digits and a sign. -/
theorem integerText_subset_characters (i : Int) : (integerText i).toList ⊆ characters := by
  rw [integerText, String.toList_ofList]
  split
  · exact List.cons_subset.mpr ⟨by decide, decimalDigits_subset_characters _⟩
  · exact decimalDigits_subset_characters _

/-- Decimals are written with digits, a sign, a point and an exponent. -/
theorem render_subset_characters (d : Decimal) : (plainFormat.render d).toList ⊆ characters := by
  have hdigits := decimalDigits_subset_characters d.digits
  have htake (n : Nat) : (decimalDigits d.digits).take n ⊆ characters :=
    List.Subset.trans (List.take_subset n _) hdigits
  have hdrop (n : Nat) : (decimalDigits d.digits).drop n ⊆ characters :=
    List.Subset.trans (List.drop_subset n _) hdigits
  have hzeros (n : Nat) : List.replicate n '0' ⊆ characters := fun c h => by
    rw [List.eq_of_mem_replicate h]
    decide
  have hpoint : '.' ∈ characters := by decide
  rw [NumberFormat.render]
  dsimp only
  split
  · split
    · -- a whole number and its zeros
      rw [String.toList_append, String.toList_ofList]
      exact List.append_subset.mpr
        ⟨List.append_subset.mpr ⟨hdigits, hzeros _⟩, List.nil_subset _⟩
    · split
      · -- a point between the digits
        rw [String.toList_ofList]
        exact List.append_subset.mpr ⟨htake _, List.cons_subset.mpr ⟨hpoint, hdrop _⟩⟩
      · -- a point before the digits
        rw [String.toList_ofList]
        refine List.append_subset.mpr ⟨?_, hdigits⟩
        exact List.cons_subset.mpr ⟨by decide, List.cons_subset.mpr ⟨hpoint, hzeros _⟩⟩
  · -- a power of ten
    rw [String.toList_ofList]
    refine List.append_subset.mpr ⟨List.append_subset.mpr ⟨htake 1, ?_⟩, ?_⟩
    · split
      · exact List.nil_subset _
      · exact List.cons_subset.mpr ⟨hpoint, hdrop 1⟩
    · refine List.cons_subset.mpr ⟨by decide, List.cons_subset.mpr ⟨?_, ?_⟩⟩
      · split <;> decide
      · exact decimalDigits_subset_characters _

/-- A number is written with these characters only. -/
theorem text_subset_characters (x : Float) : (text x).toList ⊆ characters := by
  rw [text]
  split
  · exact integerText_subset_characters _
  · split
    · decide
    · split <;> decide
    · rename_i d _
      rw [NumberFormat.renderDyadic, String.toList_append]
      refine List.append_subset.mpr ⟨?_, render_subset_characters _⟩
      split <;> decide

end RuleLang.Number
