import RuleLang.Members
import RuleLang.RuleError
import RuleLang.Value.Document

/-!
# Scopes

A scope gives a value to each name for one evaluation.

* `Scope`, `Scope.get?`, `Scope.bind`: the bound values.
* `Scope.ofJson`, `Scope.toJson`: scopes as documents.
-/

namespace RuleLang

/-- The bound values by name, in ascending order of the names. -/
structure Scope where
  values : List (String × Value)

namespace Scope

/-- The scope that binds nothing. -/
def empty : Scope := ⟨[]⟩

/-- The value bound to a name. -/
def get? (scope : Scope) (name : String) : Option Value :=
  Members.find? name scope.values

/-- Binds a name, anew if it was bound. -/
def bind (scope : Scope) (name : String) (value : Value) : Scope :=
  ⟨Members.insert name value scope.values⟩

/-- The scope of a document. -/
def ofJson (json : Json) : Except RuleError Scope :=
  match Value.ofJson json with
  | .object values => .ok ⟨values⟩
  | other => .error (.invalidParameter ("scope must be an object, got " ++ other.typeName))

/-- A scope as a document. -/
def toJson (scope : Scope) : Json :=
  .object (Value.membersJson scope.values)

end Scope

end RuleLang
