/-!
# Values

Rules run over loosely typed data: truth values, doubles, texts, arrays and objects, with two kinds of
absence.

* `Value`: a value; the members of an object are in key order.
* `Value.typeName`: the name of its kind.
* `Value.isTruthy`: its reading as a condition.
-/

namespace RuleLang

/-- A value of a rule. -/
inductive Value where
  /-- The absence of a scope entry or member. -/
  | undefined
  | null
  | bool (b : Bool)
  | number (x : Float)
  | string (s : String)
  | array (items : List Value)
  /-- Members in ascending order of their keys. -/
  | object (members : List (String × Value))

namespace Value

instance : Inhabited Value := ⟨.undefined⟩

/-- The name of the kind of a value. -/
def typeName : Value → String
  | undefined => "undefined"
  | null => "null"
  | bool _ => "boolean"
  | number _ => "number"
  | string _ => "string"
  | array _ => "array"
  | object _ => "object"

/-- Neither absence counts as a value. -/
def isNullish : Value → Bool
  | undefined => true
  | null => true
  | _ => false

/-- The reading of a value as a condition: absences, zero, what is not a number and the empty text
are false. -/
def isTruthy : Value → Bool
  | undefined => false
  | null => false
  | bool b => b
  | number x => x != 0.0 && !x.isNaN
  | string s => !s.isEmpty
  | array _ => true
  | object _ => true

/-- The truth value of a boolean. -/
def bool? : Value → Option Bool
  | bool b => some b
  | _ => none

/-- The number of a number. -/
def number? : Value → Option Float
  | number x => some x
  | _ => none

/-- The text of a string. -/
def string? : Value → Option String
  | string s => some s
  | _ => none

/-- The items of an array. -/
def array? : Value → Option (List Value)
  | array items => some items
  | _ => none

/-- A value as a sequence: an array is its items, any other value is a sequence of one. -/
def toItems : Value → List Value
  | array items => items
  | value => [value]

end Value

end RuleLang
