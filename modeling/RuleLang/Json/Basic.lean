/-!
# JSON documents

A document distinguishes integers from other numbers: an integer is one that was written without a
fraction or exponent and fits 64 bits, signed or unsigned.

* `Json`: a document.
* `Json.string?`, `Json.bool?`, `Json.natural?`, `Json.items?`, `Json.members?`: one view per kind.
-/

namespace RuleLang

/-- A JSON document. The members of an object are written in the order of the list. -/
inductive Json where
  | null
  | bool (b : Bool)
  | integer (i : Int)
  | real (x : Float)
  | string (s : String)
  | array (items : List Json)
  | object (members : List (String × Json))

namespace Json

instance : Inhabited Json := ⟨.null⟩

/-- The text of a string. -/
def string? : Json → Option String
  | string s => some s
  | _ => none

/-- The truth value of a boolean. -/
def bool? : Json → Option Bool
  | bool b => some b
  | _ => none

/-- A nonnegative integer. -/
def natural? : Json → Option Nat
  | integer (.ofNat n) => some n
  | _ => none

/-- The items of an array. -/
def items? : Json → Option (List Json)
  | array items => some items
  | _ => none

/-- The members of an object. -/
def members? : Json → Option (List (String × Json))
  | object members => some members
  | _ => none

/-- A natural number as a document. -/
def ofNat (n : Nat) : Json :=
  integer n

end Json

end RuleLang
