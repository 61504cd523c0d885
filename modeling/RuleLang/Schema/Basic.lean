import RuleLang.Schema.Shape

/-!
# Schemas

A schema declares a shape for each name that a rule may use.

* `Schema`, `Schema.get?`: the declared shapes.
* `Schema.ofJson`, `Schema.toJson`: schemas as documents.
-/

namespace RuleLang

/-- The declared shapes by name, in ascending order of the names. -/
structure Schema where
  entries : List (String × Shape)

namespace Schema

/-- The schema that declares nothing. -/
def empty : Schema := ⟨[]⟩

/-- The shape declared for a name. -/
def get? (schema : Schema) (name : String) : Option Shape :=
  Members.find? name schema.entries

/-- The schema of a document. An error in an entry is reported in its own words. -/
def ofJson : Json → Except RuleError Schema
  | .object members =>
    ((Shape.ofMembers members).mapError Shape.enclosingError).map Schema.mk
  | _ => .error (.malformedDocument "invalid type: expected a map")

/-- A schema as a document. -/
def toJson (schema : Schema) : Json :=
  .object (Shape.membersToJson schema.entries)

end Schema

end RuleLang
