import RuleLang.Config
import RuleLang.Evaluation.Combinators
import RuleLang.Feature.Basic
import RuleLang.Node.Text
import RuleLang.Value.Access
import RuleLang.Value.Operation

/-!
# Evaluation

A tree is evaluated in a scope. Operands, elements and arguments are evaluated side by side; the parts
of chains, sequences and conditionals one after the other, and only as far as they are needed.

* `Evaluator`: the features by name, the configuration, and how parts are evaluated side by side.
* `Evaluator.valueOf`: the computation of the value of a tree.
* `Evaluator.chain`: a chain, cheapest operand first.
-/

namespace RuleLang

/-- What evaluation needs besides a tree and a scope. -/
structure Evaluator (ω : Type) where
  /-- The features by name, in ascending order of the names. -/
  features : List (String × Feature ω)
  config : EvaluationConfig
  /-- How parts are evaluated side by side. -/
  combinators : Combinators ω RuleError Value

namespace Evaluator

variable {ω : Type}

/-- The feature of a name. -/
def feature? (e : Evaluator ω) (name : String) : Option (Feature ω) :=
  Members.find? name e.features

/-- The elements of an array or the arguments of a call, as many under way as the configuration
allows, and at least one. -/
def gather (e : Evaluator ω) (parts : List (Computation ω RuleError Value)) :
    Computation ω RuleError (List Value) :=
  match e.config.maxFanout with
  | none => e.combinators.all parts
  | some limit => e.combinators.buffered (max limit 1) parts

/-- The operands of a chain from the cheapest to the dearest; equally dear ones keep their order. -/
def byWeight {α : Type} (operands : List (Weight × α)) : List (Weight × α) :=
  operands.mergeSort fun a b => a.1.toNat ≤ b.1.toNat

/-- Evaluates operands up to the first that decides the chain; `last` is the value before them. -/
def firstDeciding (op : LogicalOp) (last : Value) :
    List (Computation ω RuleError Value) → Computation ω RuleError Value
  | [] => .pure last
  | operand :: rest =>
    .bind operand fun value =>
      if op.decides value.isTruthy then .pure value else firstDeciding op value rest

/-- A chain: its operands by weight up to the first that decides it. A chain without operands is its
neutral truth value. -/
def chain (op : LogicalOp) (operands : List (Weight × Computation ω RuleError Value)) :
    Computation ω RuleError Value :=
  match operands with
  | [] => .pure (op.combine [])
  | operands => firstDeciding op .undefined ((byWeight operands).map Prod.snd)

/-- The value bound to a name. A feature is not a value. -/
def named (e : Evaluator ω) (scope : Scope) (name : String) : Computation ω RuleError Value :=
  match e.feature? name with
  | some _ => .fail (.notCallable ("feature `" ++ name ++ "` can only be called"))
  | none => .pure ((scope.get? name).getD .undefined)

/-- The member of a value. A missing one is undefined or an error, as configured. -/
def memberOf (e : Evaluator ω) (object : Node) (path : Path) (value : Value) :
    Computation ω RuleError Value :=
  match value.getPath? path with
  | some found => .pure found
  | none =>
    if e.config.strictMembers then .fail (.unknownPath (object.text ++ path.text))
    else .pure .undefined

/-- The feature that a callee names. -/
def callee? (e : Evaluator ω) (callee : Node) : Option (String × Feature ω) :=
  match callee.identifier? with
  | some name => (e.feature? name).map (name, ·)
  | none => none

mutual

/-- The computation of the value of a tree. -/
def valueOf (e : Evaluator ω) (scope : Scope) : Node → Computation ω RuleError Value
  | .literal _ value _ => .pure value
  | .identifier _ name => e.named scope name
  | .unary _ op operand => .map op.apply (valueOf e scope operand)
  | .binary _ op left right =>
    .map (fun (a, b) => op.apply a b)
      (e.combinators.both (valueOf e scope left) (valueOf e scope right))
  | .logical _ op operands => chain op (weighedValuesOf e scope operands)
  | .array _ elements => .map .array (e.gather (valuesOf e scope elements))
  | .conditional _ test consequent alternate =>
    .bind (valueOf e scope test) fun value =>
      if value.isTruthy then valueOf e scope consequent else valueOf e scope alternate
  | .sequence _ expressions => .inOrder .undefined (valuesOf e scope expressions)
  | .call _ callee arguments =>
    match e.callee? callee with
    | some (name, feature) =>
      .bind (e.gather (valuesOf e scope arguments)) fun values =>
        .mapError (.featureFailed name) (feature.call scope values)
    | none => .fail (.notCallable ("`" ++ callee.text ++ "` is not a feature"))
  | .member _ object path => .bind (valueOf e scope object) (e.memberOf object path)

/-- The computations of the values of trees. -/
def valuesOf (e : Evaluator ω) (scope : Scope) : List Node → List (Computation ω RuleError Value)
  | [] => []
  | node :: rest => valueOf e scope node :: valuesOf e scope rest

/-- The computations of the values of trees, with the weights of the trees. -/
def weighedValuesOf (e : Evaluator ω) (scope : Scope) :
    List Node → List (Weight × Computation ω RuleError Value)
  | [] => []
  | node :: rest => (node.weight, valueOf e scope node) :: weighedValuesOf e scope rest

end

end Evaluator

end RuleLang
