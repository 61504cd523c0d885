import RuleLang.Node.Document
import RuleLang.Node.Text
import RuleLang.Optimizer.Basic
import RuleLang.Value.Access

/-!
# One node at a time

The rules by which a node whose subtrees are validated becomes validated itself: it keeps its place and
gets a weight, folds to a literal, or gives way to one of its subtrees. A fault names the node as it
stands when the rule is applied, with its subtrees validated.

* `Optimizer.literal`, `Optimizer.identifier`: leaves.
* `Optimizer.unary` to `Optimizer.member`: nodes over validated subtrees.
-/

namespace RuleLang

/-- Names a node as the place of an error, unless the error names one already. -/
def RuleError.blameNode (node : Node) : RuleError → RuleError
  | .invalidNode inner cause => .invalidNode inner cause
  | cause => .invalidNode node.compactJson cause

/-- The total weight of trees. -/
def totalWeight {V : Type} (parts : List (Reduced V)) : Weight :=
  Weight.sum (parts.map fun part => part.node.weight)

namespace Optimizer

variable {V : Type} (o : Optimizer V)

/-- A fault of a node of its own. -/
def fault (node : Node) (e : RuleError) : Except RuleError (Reduced V) :=
  .error (e.blameNode node)

/-- A literal. It weighs nothing. -/
def literal (value : Value) (verbatim : Bool) : Except RuleError (Reduced V) :=
  match o.domain.renderLiteral value verbatim with
  | .ok rendered => .ok ⟨.ofValue value verbatim, .ofLiteral (.one value.typeName) rendered⟩
  | .error e => fault (.ofValue value verbatim) e

/-- The literal that stores a constant. -/
def fold (value : V) : Except RuleError (Reduced V) :=
  let stored := o.domain.store value
  o.literal stored.1 stored.2

/-- A name: a feature, or an entry of the schema. -/
def identifier (name : String) : Except RuleError (Reduced V) :=
  let node := Node.identifier 1 name
  match o.feature? name with
  | some _ => .ok ⟨node, ⟨.one "function", 1, .feature name⟩⟩
  | none =>
    match o.schema.get? name with
    | none => fault node (.unknownIdentifier name)
    | some shape =>
      match o.domain.splice shape with
      | some value => o.fold value
      | none => .ok ⟨node, ⟨.one shape.typeName, 1, .declared shape⟩⟩

/-- An operator in front of an operand. -/
def unary (op : UnaryOp) (operand : Reduced V) : Except RuleError (Reduced V) :=
  match operand.result.literal? with
  | some value => o.fold (o.domain.unary op value)
  | none =>
    let weight := operand.result.weight + 1
    .ok ⟨.unary weight op operand.node, .ofComputed operand.result.estimate weight none⟩

/-- An operator between two operands. -/
def binary (op : BinaryOp) (left right : Reduced V) : Except RuleError (Reduced V) :=
  let weight := left.result.weight + right.result.weight + 1
  let node := Node.binary weight op left.node right.node
  match left.result.literal?, right.result.literal? with
  | some a, some b =>
    match o.domain.binary op a b with
    | .ok value => o.fold value
    | .error e => fault node e
  | _, _ =>
    .ok ⟨node, .ofComputed (.union [left.result.estimate, right.result.estimate]) weight none⟩

/-- The constants of operands that are all literals. -/
def constants (operands : List (Reduced V)) : List V :=
  operands.filterMap fun operand => operand.result.literal?

/-- Whether an operand is a constant whose truth value validation may use. -/
def isAbsorbed (operand : Reduced V) : Bool :=
  o.config.absorption && operand.node.constant?.isSome

/-- Whether an operand decides a chain by itself. -/
def isDecisive (op : LogicalOp) (operand : Reduced V) : Bool :=
  o.config.absorption && operand.node.constant?.any fun value => op.decides value.isTruthy

/-- The operands that a tree contributes to an enclosing chain: its own if it is a chain of the same
operator and chains are merged, else itself. -/
def flatten (op : LogicalOp) (node : Node) : List Node :=
  match node with
  | .logical _ inner operands => if o.config.flattening && inner = op then operands else [node]
  | node => [node]

/-- A chain. If all operands are constants it folds. Otherwise constants are absorbed: one that decides
replaces the chain and the others are dropped. What remains is the chain's truth value, the single
operand, a folded chain of literals, or a chain with the chains inside it merged. An operand that takes the
place of the chain is not validated again: it would stay as it is (`reduceAt_of_reduceAt_succ`) where
compilers of arguments give a text that they have compiled back as it is. -/
def logical (op : LogicalOp) (operands : List (Reduced V)) : Except RuleError (Reduced V) :=
  if operands.all fun operand => operand.node.constant?.isSome then
    o.fold (o.domain.logical op (constants operands))
  else
    match operands.find? (o.isDecisive op) with
    | some deciding => .ok deciding
    | none =>
      match operands.filter fun operand => !o.isAbsorbed operand with
      | [] => o.literal (.bool op.neutral) false
      | [single] => .ok single
      | kept =>
        if kept.all fun operand => operand.node.isLiteral then
          o.fold (o.domain.logical op (constants kept))
        else
          let nodes := kept.flatMap fun operand => o.flatten op operand.node
          let weight := Weight.sum (nodes.map Node.weight) + 1
          .ok ⟨.logical weight op nodes, .ofComputed (.one "boolean") weight none⟩

/-- The constant of a literal that stands in an array. -/
def element (node : Node) : Except RuleError V :=
  match node.literal? with
  | some (value, verbatim) => o.domain.renderElement value verbatim
  | none => .error (.notConstant node.text)

/-- An array. Constants make a literal, other literals fold in the domain. -/
def array (weight : Weight) (elements : List (Reduced V)) : Except RuleError (Reduced V) :=
  let nodes := elements.map Reduced.node
  if nodes.all fun node => node.constant?.isSome then
    o.literal (.array (nodes.filterMap Node.constant?)) false
  else if nodes.all Node.isLiteral then
    match nodes.mapM o.element with
    | .ok values => o.fold (o.domain.array values)
    | .error e => fault (.array weight nodes) e
  else
    let weight := totalWeight elements + 1
    .ok ⟨.array weight nodes, .ofComputed (.one "array") weight none⟩

/-- A conditional. A constant test selects its branch, which is not validated again, just as an operand that
takes the place of its chain; three literals with an opaque test fold in the domain. -/
def conditional (test consequent alternate : Reduced V) : Except RuleError (Reduced V) :=
  match test.node.constant? with
  | some value => .ok (if value.isTruthy then consequent else alternate)
  | none =>
    match test.result.literal?, consequent.result.literal?, alternate.result.literal? with
    | some t, some c, some a => o.fold (o.domain.conditional t c a)
    | _, _, _ =>
      let weight :=
        test.result.weight + Weight.max consequent.result.weight alternate.result.weight + 1
      .ok ⟨.conditional weight test.node consequent.node alternate.node,
        .ofComputed (.union [consequent.result.estimate, alternate.result.estimate]) weight none⟩

/-- A sequence. One that ends in a constant is that constant; otherwise all its parts stay. -/
def sequence (expressions : List (Reduced V)) : Except RuleError (Reduced V) :=
  match expressions.getLast? with
  | none => o.literal .undefined false
  | some last =>
    match last.result.literal? with
    | some _ => .ok last
    | none =>
      let weight := totalWeight expressions + 1
      .ok ⟨.sequence weight (expressions.map Reduced.node),
        .ofComputed last.result.estimate weight last.result.shape?⟩

/-- The feature that a callee names. -/
def callee? (callee : Reduced V) : Option (StaticFeature V) :=
  match callee.result.origin with
  | .feature name => o.feature? name
  | _ => none

/-- A call of a feature with validated arguments: its description may fold it, else it declares the
weight and the shape of the call. -/
def call (weight : Weight) (feature : StaticFeature V) (callee : Reduced V)
    (arguments : List (Reduced V)) : Except RuleError (Reduced V) :=
  let nodes := arguments.map Reduced.node
  match feature.describe (arguments.map Reduced.result) with
  | .error e => fault (.call weight callee.node nodes) e
  | .ok description =>
    match description.value? with
    | some value => o.fold value
    | none =>
      let weight := callee.result.weight + 1 +
        Weight.sum (arguments.map fun argument => argument.result.weight) + description.weight
      .ok ⟨.call weight callee.node nodes,
        .ofComputed (.one description.returns.typeName) weight (some description.returns)⟩

/-- A member of a literal. Compiled text has none. -/
def literalMember (node : Node) (object : Node) (value : Value) (verbatim : Bool) (path : Path) :
    Except RuleError (Reduced V) :=
  if verbatim then
    fault node (.typeError ("cannot access members of compiled " ++ o.domain.name ++ " text"))
  else
    match value.getPath? path with
    | some found => o.literal found false
    | none => fault node (.unknownPath (object.text ++ path.text))

/-- A member of a declared shape. -/
def declaredMember (node : Node) (object : Reduced V) (shape : Shape) (path : Path) :
    Except RuleError (Reduced V) :=
  match shape.lookup? path with
  | none => fault node (.unknownPath (object.node.text ++ path.text))
  | some found =>
    match o.domain.splice found with
    | some value => o.fold value
    | none =>
      let weight := object.result.weight + 1
      .ok ⟨.member weight object.node path, ⟨.one found.typeName, weight, .declared found⟩⟩

/-- A member access: into a literal, along a declared shape, or unknown until evaluation. -/
def member (weight : Weight) (object : Reduced V) (path : Path) : Except RuleError (Reduced V) :=
  let node := Node.member weight object.node path
  match object.node.literal? with
  | some (value, verbatim) => o.literalMember node object.node value verbatim path
  | none =>
    match object.result.origin with
    | .declared shape => o.declaredMember node object shape path
    | .computed (some shape) => o.declaredMember node object shape path
    | .feature name => fault node (.typeError ("feature `" ++ name ++ "` has no members"))
    | _ =>
      let weight := object.result.weight + 1
      .ok ⟨.member weight object.node path, .ofComputed (.one "any") weight none⟩

end Optimizer

end RuleLang
