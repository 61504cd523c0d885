import RuleLang.Proofs.Number.Characters

/-!
# The signs of numbers

A number has a minus sign in front of its digits, and perhaps one in front of its power of ten. Behind each
of them stands something else.

* `Number.SignsApart`: behind each minus sign of a text stands another character.
* `Number.signsApart_text`: numbers are such texts.
-/

namespace RuleLang.Number

/-- Behind each minus sign stands a character that is none. -/
def SignsApart (cs : List Char) : Prop :=
  ∀ before after, cs = before ++ '-' :: after → ∃ c, after.head? = some c ∧ c ≠ '-'

/-- A text that may stand behind a minus sign. -/
structure Unsigned (cs : List Char) : Prop where
  apart : SignsApart cs
  begins : ∃ c, cs.head? = some c ∧ c ≠ '-'

variable {as bs cs : List Char}

/-- Where there is no minus sign, none follows another. -/
theorem signsApart_of_not_mem (h : '-' ∉ cs) : SignsApart cs := by
  rintro before after rfl
  exact absurd (List.mem_append_right before List.mem_cons_self) h

/-- Where no minus sign of either text stands last or beside another, none does so in both together. -/
theorem SignsApart.append (ha : SignsApart as) (hb : SignsApart bs) : SignsApart (as ++ bs) := by
  intro before after heq
  rcases List.append_eq_append_iff.mp heq with ⟨rest, rfl, rfl⟩ | ⟨rest, rfl, hrest⟩
  · exact hb rest after rfl
  · cases rest with
    | nil => exact hb [] after hrest.symm
    | cons first rest =>
        rw [List.cons_append] at hrest
        obtain ⟨rfl, rfl⟩ := List.cons.inj hrest
        obtain ⟨c, hc, hne⟩ := ha before rest rfl
        exact ⟨c, by rw [List.head?_append, hc]; rfl, hne⟩

/-- A text without a minus sign may stand behind one. -/
theorem unsigned_of_not_mem (hne : cs ≠ []) (h : '-' ∉ cs) : Unsigned cs := by
  obtain ⟨c, rest, rfl⟩ := List.exists_cons_of_ne_nil hne
  exact ⟨signsApart_of_not_mem h, c, rfl, fun hc => h (hc ▸ List.mem_cons_self)⟩

/-- A text that may stand behind a minus sign may do so with more behind it. -/
theorem Unsigned.append (ha : Unsigned as) (hb : SignsApart bs) : Unsigned (as ++ bs) := by
  obtain ⟨c, hc, hne⟩ := ha.begins
  exact ⟨ha.apart.append hb, c, by rw [List.head?_append, hc]; rfl, hne⟩

/-- A minus sign in front of a text. -/
theorem Unsigned.signed (h : Unsigned cs) : SignsApart ('-' :: cs) := by
  intro before after heq
  cases before with
  | nil =>
      obtain ⟨-, rfl⟩ := List.cons.inj heq
      exact h.begins
  | cons first before =>
      rw [List.cons_append] at heq
      obtain ⟨-, rfl⟩ := List.cons.inj heq
      exact h.apart before after rfl

/-! ### The forms of numbers -/

/-- There is no minus sign among decimal digits. -/
theorem minus_not_mem_decimalDigits (n : Nat) : '-' ∉ decimalDigits n := fun h =>
  absurd (Nat.isDigit_of_mem_toDigits (by decide) (by decide) h) (by decide)

/-- A natural number has at least one digit. -/
theorem decimalDigits_ne_nil (n : Nat) : decimalDigits n ≠ [] :=
  Nat.toDigits_ne_nil

/-- A natural number may stand behind a minus sign. -/
theorem unsigned_decimalDigits (n : Nat) : Unsigned (decimalDigits n) :=
  unsigned_of_not_mem (decimalDigits_ne_nil n) (minus_not_mem_decimalDigits n)

/-- An integer has no doubled minus sign. -/
theorem signsApart_integerText (i : Int) : SignsApart (integerText i).toList := by
  rw [integerText, String.toList_ofList]
  split
  · exact (unsigned_decimalDigits _).signed
  · exact (unsigned_decimalDigits _).apart

/-- Only the power of ten of a decimal may have a sign. -/
theorem unsigned_render (d : Decimal) : Unsigned (plainFormat.render d).toList := by
  have hdigits := minus_not_mem_decimalDigits d.digits
  have htake (n : Nat) : '-' ∉ (decimalDigits d.digits).take n := mt List.mem_of_mem_take hdigits
  have hdrop (n : Nat) : '-' ∉ (decimalDigits d.digits).drop n := mt List.mem_of_mem_drop hdigits
  have hzeros (n : Nat) : '-' ∉ List.replicate n '0' := fun h =>
    absurd (List.eq_of_mem_replicate h) (by decide)
  rw [NumberFormat.render]
  dsimp only
  split
  · split
    · -- a whole number and its zeros
      rw [String.toList_append, String.toList_ofList]
      have hwhole := (unsigned_decimalDigits d.digits).append (signsApart_of_not_mem (hzeros d.exponent.toNat))
      exact hwhole.append (signsApart_of_not_mem (by decide))
    · split
      · -- a point between the digits
        rw [String.toList_ofList]
        exact unsigned_of_not_mem (by simp) (by simp [htake, hdrop])
      · -- a point before the digits
        rw [String.toList_ofList]
        exact unsigned_of_not_mem (by simp) (by simp [hzeros, hdigits])
  · -- a power of ten
    rw [String.toList_ofList]
    refine Unsigned.append (unsigned_of_not_mem ?_ ?_) ?_
    · simp [decimalDigits_ne_nil]
    · rw [List.mem_append, not_or]
      refine ⟨htake 1, ?_⟩
      split
      · exact List.not_mem_nil
      · exact List.not_mem_cons_of_ne_of_not_mem (by decide) (hdrop 1)
    · have hletter : SignsApart ['e'] := signsApart_of_not_mem (by decide)
      refine hletter.append ?_
      split
      · exact (unsigned_decimalDigits _).signed
      · exact signsApart_of_not_mem
          (List.not_mem_cons_of_ne_of_not_mem (by decide) (minus_not_mem_decimalDigits _))

/-- Behind each minus sign of a number stands another character. -/
theorem signsApart_text (x : Float) : SignsApart (text x).toList := by
  rw [text]
  split
  · exact signsApart_integerText _
  · split
    · exact signsApart_of_not_mem (by decide)
    · split
      · exact (unsigned_of_not_mem (by decide) (by decide) : Unsigned "Infinity".toList).signed
      · exact signsApart_of_not_mem (by decide)
    · rename_i d _
      rw [NumberFormat.renderDyadic, String.toList_append]
      have hrender := unsigned_render (shortest plainFormat.tie d.mantissa d.exponent)
      split
      · exact hrender.signed
      · exact hrender.apart

end RuleLang.Number
