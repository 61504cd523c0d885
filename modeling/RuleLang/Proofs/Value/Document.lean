import RuleLang.Proofs.Number.Integers
import RuleLang.Value.Document

/-!
# Values written and read again

A document has one form for both absences and for numbers that are not finite, and no zero with a
sign. Nothing else is lost when a value is written as a document and read again.

* `Value.erase`: a value without what a document does not keep.
* `Value.ofJson_toJson`: writing and reading a value erases it.
-/

namespace RuleLang.Value

/-- A number as a document keeps it: one that is not finite is null, and zero has no sign. -/
def eraseNumber (x : Float) : Value :=
  match Number.parts x with
  | .finite d => if d.mantissa = 0 then number (Number.ofInt 0) else number x
  | .infinite _ => null
  | .nan => null

mutual

/-- A value as a document keeps it. -/
def erase : Value → Value
  | undefined => null
  | null => null
  | bool b => bool b
  | number x => eraseNumber x
  | string s => string s
  | array items => array (eraseItems items)
  | object members => object (eraseMembers members)

/-- Items as a document keeps them. -/
def eraseItems : List Value → List Value
  | [] => []
  | item :: rest => erase item :: eraseItems rest

/-- Members as a document keeps them. -/
def eraseMembers : List (String × Value) → List (String × Value)
  | [] => []
  | (key, value) :: rest => (key, erase value) :: eraseMembers rest

end

/-- A number is read back, where what is not finite is lost. -/
theorem ofJson_numberJson (x : Float) : ofJson (numberJson x) = eraseNumber x := by
  rw [numberJson, eraseNumber]
  cases hparts : Number.parts x with
  | finite d =>
      have hzero := Number.exactInteger?_eq_zero_iff hparts
      cases hinteger : Number.exactInteger? x with
      | some i =>
          by_cases hi : i = 0
          · rw [hi] at hinteger
            simp only [if_pos (hzero.mp hinteger), hi, ofJson]
          · have hm : ¬ d.mantissa = 0 := by
              intro hm
              rw [hzero.mpr hm] at hinteger
              exact hi (Option.some.inj hinteger).symm
            simp only [if_neg hm, ofJson, Number.ofInt_of_exactInteger? hinteger hi]
      | none =>
          have hm : ¬ d.mantissa = 0 := by
            intro hm
            rw [hzero.mpr hm] at hinteger
            cases hinteger
          simp only [Number.isFinite, hparts, if_neg hm, if_true, ofJson]
  | infinite negative | nan =>
      simp [Number.exactInteger?, Number.isFinite, hparts, ofJson]

mutual

/-- Writing and reading a value erases it. -/
theorem ofJson_toJson : ∀ value : Value, ofJson value.toJson = value.erase
  | undefined | null | bool _ | string _ => rfl
  | number x => ofJson_numberJson x
  | array items => by rw [toJson, ofJson, erase, ofItems_itemsJson items]
  | object members => by rw [toJson, ofJson, erase, ofMembers_membersJson members]

/-- Items are read back, each with its losses. -/
theorem ofItems_itemsJson : ∀ items : List Value, ofItems (itemsJson items) = eraseItems items
  | [] => rfl
  | item :: rest => by
      rw [itemsJson, ofItems, eraseItems, ofJson_toJson item, ofItems_itemsJson rest]

/-- Members are read back, each with its losses. -/
theorem ofMembers_membersJson :
    ∀ members : List (String × Value), ofMembers (membersJson members) = eraseMembers members
  | [] => rfl
  | (key, value) :: rest => by
      rw [membersJson, ofMembers, eraseMembers, ofJson_toJson value, ofMembers_membersJson rest]

end

end RuleLang.Value
