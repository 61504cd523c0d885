import RuleLang.Optimizer.Step

/-!
# Validation

A tree is validated from the leaves up, each node by the rule of its kind, and no deeper than the
configured level. The first fault in the order of evaluation is the error.

* `Optimizer.reduceAt`: a tree at a nesting level.
* `Optimizer.compile`: a whole tree with what is known of it.
* `Optimizer.validate`: the validated tree alone.
-/

namespace RuleLang.Optimizer

variable {V : Type} (o : Optimizer V)

/-- Checks that a node may stand at a nesting level. -/
def checkLevel (node : Node) (level : Nat) : Except RuleError Unit :=
  if o.config.maxDepth < level then
    .error ((RuleError.depthExceeded o.config.maxDepth).blameNode node)
  else .ok ()

/-- An argument that was compiled to text. -/
def compiledArgument (compile : Node → Except RuleError String) (argument : Node) (level : Nat) :
    Except RuleError (Reduced V) :=
  match compile argument with
  | .error e => .error (e.blameNode argument)
  | .ok text => do
    o.checkLevel (.ofValue (.string text) true) level
    o.literal (.string text) true

mutual

/-- A tree at a nesting level. -/
def reduceAt (level : Nat) (node : Node) : Except RuleError (Reduced V) := do
  o.checkLevel node level
  match node with
  | .literal _ value verbatim => o.literal value verbatim
  | .identifier _ name => o.identifier name
  | .unary _ op operand => o.unary op (← reduceAt (level + 1) operand)
  | .binary _ op left right =>
    o.binary op (← reduceAt (level + 1) left) (← reduceAt (level + 1) right)
  | .logical _ op operands => o.logical op (← reduceAll (level + 1) operands)
  | .array weight elements => o.array weight (← reduceAll (level + 1) elements)
  | .conditional _ test consequent alternate =>
    o.conditional (← reduceAt (level + 1) test) (← reduceAt (level + 1) consequent)
      (← reduceAt (level + 1) alternate)
  | .sequence _ expressions => o.sequence (← reduceAll (level + 1) expressions)
  | .call weight callee arguments =>
    let reduced ← reduceAt (level + 1) callee
    match o.callee? reduced with
    | none =>
      fault (.call weight reduced.node arguments)
        (.notCallable ("`" ++ reduced.node.text ++ "` is not a feature"))
    | some feature =>
      let arguments ← match feature.argumentCompiler? with
        | some compile =>
          arguments.mapM fun argument => o.compiledArgument compile argument (level + 1)
        | none => reduceAll (level + 1) arguments
      o.call weight feature reduced arguments
  | .member weight object path => o.member weight (← reduceAt (level + 1) object) path

/-- Trees at a nesting level, from left to right. -/
def reduceAll (level : Nat) (nodes : List Node) : Except RuleError (List (Reduced V)) :=
  match nodes with
  | [] => .ok []
  | node :: rest => do
    let reduced ← reduceAt level node
    return reduced :: (← reduceAll level rest)

end

/-- A whole tree with what is known of it. -/
def compile (ast : Node) : Except RuleError (Reduced V) :=
  o.reduceAt 0 ast

/-- The validated tree. -/
def validate (ast : Node) : Except RuleError Node :=
  (o.compile ast).map Reduced.node

end RuleLang.Optimizer
