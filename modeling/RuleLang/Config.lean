import RuleLang.Json.Basic
import RuleLang.Members
import RuleLang.Path

/-!
# Configuration

* `OptimizerConfig`: what validation may simplify, and how deep a tree may be nested.
* `EvaluationConfig`: how many parts of a list may be under way at a time, and whether a missing member
  is an error.
* `RuleConfig`: both.
* `RuleConfig.ofJson?`, `RuleConfig.toJson`: configurations as documents.
-/

namespace RuleLang

/-- How trees are validated. -/
structure OptimizerConfig where
  /-- The largest nesting level of a node; the root has level zero. -/
  maxDepth : Nat
  /-- Merge a chain into an enclosing chain of the same operator. -/
  flattening : Bool
  /-- Drop constant operands of a chain, or replace the chain by one that decides it. -/
  absorption : Bool
  deriving DecidableEq

/-- How trees are evaluated. -/
structure EvaluationConfig where
  /-- How many elements of an array or arguments of a call may be under way; `none` for all. -/
  maxFanout : Option Nat
  /-- Fail at a member that a value does not have. -/
  strictMembers : Bool
  deriving DecidableEq

/-- A configuration of validation and evaluation. -/
structure RuleConfig where
  optimizer : OptimizerConfig
  evaluation : EvaluationConfig
  deriving DecidableEq

/-- A natural number that a document may hold as a size. -/
def Json.size? (json : Json) : Option Nat :=
  json.natural?.bind fun n => if n ≤ largestIndex then some n else none

/-- The fields of a record: the members of an object with these names, or the items of an array in
this order. An object may have other members, but an array may have no other items. -/
def Json.fields? (names : List String) : Json → Option (List (Option Json))
  | .object members => some (names.map fun name => Members.find? name members)
  | .array items =>
    if items.length ≤ names.length then
      some ((List.range names.length).map fun i => items[i]?)
    else none
  | _ => none

/-- A field that may be missing, in which case it has its default. -/
def fieldOr {α : Type} (default : α) (read? : Json → Option α) : Option Json → Option α
  | some json => read? json
  | none => some default

namespace OptimizerConfig

/-- Both simplifications, and 256 levels. -/
def default : OptimizerConfig := ⟨256, true, true⟩

/-- The optimizer section of a document. -/
def ofJson? (json : Json) : Option OptimizerConfig := do
  match ← json.fields? ["max_depth", "enable_flattening", "enable_absorption"] with
  | [depth, flattening, absorption] =>
    return ⟨← fieldOr default.maxDepth Json.size? depth,
      ← fieldOr default.flattening Json.bool? flattening,
      ← fieldOr default.absorption Json.bool? absorption⟩
  | _ => none

/-- The section as a document. -/
def toJson (config : OptimizerConfig) : Json :=
  .object [("max_depth", Json.ofNat config.maxDepth),
    ("enable_flattening", .bool config.flattening),
    ("enable_absorption", .bool config.absorption)]

end OptimizerConfig

namespace EvaluationConfig

/-- No bound, and missing members are absent values. -/
def default : EvaluationConfig := ⟨none, false⟩

/-- Bounds how much of a list is under way, by at least one. -/
def withMaxFanout (config : EvaluationConfig) (n : Nat) : EvaluationConfig :=
  { config with maxFanout := some (max n 1) }

/-- A bound in a document; null is no bound. -/
def fanout? : Json → Option (Option Nat)
  | .null => some none
  | json => json.size?.map some

/-- The evaluation section of a document. -/
def ofJson? (json : Json) : Option EvaluationConfig := do
  match ← json.fields? ["max_fanout", "strict_members"] with
  | [fanout, strict] =>
    return ⟨← fieldOr default.maxFanout fanout? fanout,
      ← fieldOr default.strictMembers Json.bool? strict⟩
  | _ => none

/-- The section as a document. -/
def toJson (config : EvaluationConfig) : Json :=
  .object [("max_fanout", config.maxFanout.elim .null Json.ofNat),
    ("strict_members", .bool config.strictMembers)]

end EvaluationConfig

namespace RuleConfig

/-- The default of both sections. -/
def default : RuleConfig := ⟨.default, .default⟩

/-- The configuration of a document. -/
def ofJson? (json : Json) : Option RuleConfig := do
  match ← json.fields? ["optimizer", "interpreter"] with
  | [optimizer, evaluation] =>
    return ⟨← fieldOr default.optimizer OptimizerConfig.ofJson? optimizer,
      ← fieldOr default.evaluation EvaluationConfig.ofJson? evaluation⟩
  | _ => none

/-- A configuration as a document. -/
def toJson (config : RuleConfig) : Json :=
  .object [("optimizer", config.optimizer.toJson), ("interpreter", config.evaluation.toJson)]

end RuleConfig

end RuleLang
