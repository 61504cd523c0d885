import RuleLang.Json.Basic

/-!
# Type estimates

What is known about the type of a tree before it is evaluated: one name, or several candidates in the
order in which they were first seen.

* `TypeEstimate.union`: the candidates of several estimates, each name once.
* `TypeEstimate.text`: the names with bars between them.
-/

namespace RuleLang

/-- The candidate types of a tree. -/
inductive TypeEstimate where
  | one (name : String)
  | many (names : List String)
  deriving DecidableEq

namespace TypeEstimate

/-- The candidates. -/
def names : TypeEstimate → List String
  | one name => [name]
  | many names => names

/-- Adds a name that was not seen yet. -/
def addName (seen : List String) (name : String) : List String :=
  if seen.contains name then seen else seen ++ [name]

/-- The estimate of a list of names without duplicates. -/
def ofNames : List String → TypeEstimate
  | [] => one "undefined"
  | [name] => one name
  | names => many names

/-- The candidates of several estimates in first-seen order, each name once. -/
def union (estimates : List TypeEstimate) : TypeEstimate :=
  ofNames ((estimates.flatMap names).foldl addName [])

/-- Whether an estimate is exactly one name. -/
def is (estimate : TypeEstimate) (name : String) : Bool :=
  estimate == one name

/-- The names with bars between them. -/
def text (estimate : TypeEstimate) : String :=
  "|".intercalate estimate.names

/-- An estimate as a document. -/
def toJson : TypeEstimate → Json
  | one name => .string name
  | many names => .array (names.map .string)

/-- The estimate of a document. -/
def ofJson? : Json → Option TypeEstimate
  | .string s => some (one s)
  | .array items => (items.mapM Json.string?).map many
  | _ => none

end TypeEstimate

end RuleLang
