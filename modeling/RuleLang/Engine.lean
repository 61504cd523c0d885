import RuleLang.Domain.Concrete
import RuleLang.Evaluation.Basic
import RuleLang.Evaluation.Rounds
import RuleLang.Optimizer.Reduce

/-!
# Engines

An engine validates rules over a schema and evaluates them in scopes, with one set of features for
both.

* `Engine.newWith`, `Engine.new`: engines without features.
* `Engine.addFeature`: adds a feature; the first of a name is kept.
* `Engine.validate`, `Engine.valueOf`, `Engine.evaluate`: the two stages, and both.
-/

namespace RuleLang

/-- Validation and evaluation over the same features. -/
structure Engine (ω : Type) where
  optimizer : Optimizer Value
  evaluator : Evaluator ω

namespace Engine

variable {ω : Type}

/-- An engine without features, in the default configuration. -/
def newWith (combinators : Combinators ω RuleError Value) (schema : Schema) : Engine ω :=
  ⟨.new concreteDomain schema, ⟨[], .default, combinators⟩⟩

/-- An engine without features that evaluates parts side by side in rounds. -/
def new (schema : Schema) : Engine ω :=
  newWith .rounds schema

/-- The same engine in another configuration. -/
def withConfig (engine : Engine ω) (config : RuleConfig) : Engine ω :=
  ⟨engine.optimizer.withConfig config.optimizer,
    { engine.evaluator with config := config.evaluation }⟩

/-- Adds a feature for validation and evaluation alike. A name is never bound anew. -/
def addFeature (engine : Engine ω) (name : String) (feature : Feature ω) : Engine ω :=
  match engine.evaluator.feature? name with
  | some _ => engine
  | none =>
    ⟨engine.optimizer.addFeature name feature.staticSide,
      { engine.evaluator with features := Members.insert name feature engine.evaluator.features }⟩

/-- The names of the features, in ascending order. -/
def featureNames (engine : Engine ω) : List String :=
  engine.evaluator.features.map Prod.fst

/-- A validated tree with what is known of it. -/
def compile (engine : Engine ω) (ast : Node) : Except RuleError (Reduced Value) :=
  engine.optimizer.compile ast

/-- The validated tree. -/
def validate (engine : Engine ω) (ast : Node) : Except RuleError Node :=
  engine.optimizer.validate ast

/-- The value of a validated tree. -/
def valueOf (engine : Engine ω) (scope : Scope) (node : Node) : Computation ω RuleError Value :=
  engine.evaluator.valueOf scope node

/-- Validates a tree and evaluates the result. -/
def evaluate (engine : Engine ω) (scope : Scope) (ast : Node) : Computation ω RuleError Value :=
  match engine.validate ast with
  | .ok node => engine.valueOf scope node
  | .error e => .fail e

end Engine

end RuleLang
