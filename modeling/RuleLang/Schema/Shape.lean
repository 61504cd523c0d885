import RuleLang.Json.Printer
import RuleLang.Members
import RuleLang.Path
import RuleLang.RuleError
import RuleLang.Text.Blank

/-!
# Shapes

A shape declares what a name or member holds: a scalar of a named type, a column or a parameter of a
SQL statement, or an object with members. In a document a leaf is an object whose member `type` is a
string; every other object is a shape with members.

* `Shape`, `Shape.get?`, `Shape.lookup?`: shapes and their members.
* `Shape.ofJson`, `Shape.toJson`: shapes as documents.
* `Shape.ofPart`: a shape as part of a larger document.
-/

namespace RuleLang

/-- What a name or member holds. -/
inductive Shape where
  | scalar (typeName : String)
  /-- A column, written unchanged into SQL. -/
  | field (column : String)
  /-- A bound parameter, written unchanged into SQL. -/
  | placeholder (marker : String)
  /-- Members in ascending order of their keys. -/
  | object (members : List (String × Shape))

namespace Shape

/-- The name of the type of a shape. -/
def typeName : Shape → String
  | scalar name => name
  | field _ => "field"
  | placeholder _ => "placeholder"
  | object _ => "object"

/-- The member at a step. An index names the key that is its text. -/
def get? : Shape → Segment → Option Shape
  | object members, segment => Members.find? segment.keyText members
  | _, _ => none

/-- The member at the end of a path. -/
def lookup? : Shape → Path → Option Shape
  | shape, [] => some shape
  | shape, segment :: path => (shape.get? segment).bind (lookup? · path)

/-- The type that an object declares for itself as a leaf, without blanks at its ends. -/
def leafType? (members : List (String × Json)) : Option String :=
  match Members.find? "type" members with
  | some (.string name) => some (Text.trim name)
  | _ => none

/-- The leaf of a declared type. Columns and parameters need their text. -/
def leaf (typeName : String) (members : List (String × Json)) : Except RuleError Shape :=
  if typeName = "field" ∨ typeName = "placeholder" then
    match Members.find? "value" members with
    | some (.string text) => .ok (if typeName = "field" then field text else placeholder text)
    | _ =>
      .error (.invalidParameter ("schema " ++ typeName ++ " entry requires a string `value`"))
  else .ok (scalar typeName)

mutual

/-- The shape of a document. -/
def ofJson : Json → Except RuleError Shape
  | .object members =>
    match leafType? members with
    | some typeName => leaf typeName members
    | none => (ofMembers members).map object
  | json => .error (.invalidParameter ("schema entry must be an object, got " ++ json.compact))

/-- The shapes of members; the first that is none is the error. -/
def ofMembers : List (String × Json) → Except RuleError (List (String × Shape))
  | [] => .ok []
  | (key, json) :: rest =>
    match ofJson json with
    | .error e => .error e
    | .ok shape => (ofMembers rest).map ((key, shape) :: ·)

end

mutual

/-- A shape as a document. -/
def toJson : Shape → Json
  | scalar name => .object [("type", .string name)]
  | field column => .object [("type", .string "field"), ("value", .string column)]
  | placeholder marker => .object [("type", .string "placeholder"), ("value", .string marker)]
  | object members => .object (membersToJson members)

/-- Members as documents. -/
def membersToJson : List (String × Shape) → List (String × Json)
  | [] => []
  | (key, shape) :: rest => (key, toJson shape) :: membersToJson rest

end

/-- How an error in a shape is reported by the document that holds it. -/
def enclosingError (e : RuleError) : RuleError :=
  .malformedDocument e.message

/-- The shape that stands in a larger document. -/
def ofPart (json : Json) : Except RuleError Shape :=
  (ofJson json).mapError enclosingError

end Shape

end RuleLang
