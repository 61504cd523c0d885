import RuleLang.Json.Basic
import RuleLang.Number.Text
import RuleLang.Value.Basic

/-!
# Values as documents

* `Value.toJson`: a value as a document. An absence and a number that is not finite are null; whole
  numbers up to `Number.largestExactInteger` are integers.
* `Value.ofJson`: the value of a document.
-/

namespace RuleLang.Value

/-- A number as a document. -/
def numberJson (x : Float) : Json :=
  match Number.exactInteger? x with
  | some i => .integer i
  | none => if Number.isFinite x then .real x else .null

mutual

/-- A value as a document. -/
def toJson : Value → Json
  | undefined => .null
  | null => .null
  | bool b => .bool b
  | number x => numberJson x
  | string s => .string s
  | array items => .array (itemsJson items)
  | object members => .object (membersJson members)

/-- Items as documents. -/
def itemsJson : List Value → List Json
  | [] => []
  | item :: rest => toJson item :: itemsJson rest

/-- Members as documents. -/
def membersJson : List (String × Value) → List (String × Json)
  | [] => []
  | (key, value) :: rest => (key, toJson value) :: membersJson rest

end

mutual

/-- The value of a document. -/
def ofJson : Json → Value
  | .null => null
  | .bool b => bool b
  | .integer i => number (Number.ofInt i)
  | .real x => number x
  | .string s => string s
  | .array items => array (ofItems items)
  | .object members => object (ofMembers members)

/-- The values of items. -/
def ofItems : List Json → List Value
  | [] => []
  | item :: rest => ofJson item :: ofItems rest

/-- The values of members. -/
def ofMembers : List (String × Json) → List (String × Value)
  | [] => []
  | (key, value) :: rest => (key, ofJson value) :: ofMembers rest

end

end RuleLang.Value
