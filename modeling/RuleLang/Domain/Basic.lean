import RuleLang.Operator
import RuleLang.RuleError
import RuleLang.Schema.Shape
import RuleLang.Value.Basic

/-!
# Domains

A domain says what constants fold to: how a literal is rendered, how operators combine rendered
operands, and how a rendered constant is stored in a tree again. One domain folds to values, another to
the text of a query language; validation is the same for both.

* `Domain`: the operations that validation needs.
-/

namespace RuleLang

/-- What constants of type `V` are made of and how they combine. -/
structure Domain (V : Type) where
  /-- The name of the domain in error messages. -/
  name : String
  /-- The constant of a literal, given its value and whether it is verbatim. -/
  renderLiteral : Value → Bool → Except RuleError V
  /-- The constant of a literal that stands as an element of an array. -/
  renderElement : Value → Bool → Except RuleError V
  /-- The literal that stores a constant. -/
  store : V → Value × Bool
  unary : UnaryOp → V → V
  binary : BinaryOp → V → V → Except RuleError V
  logical : LogicalOp → List V → V
  array : List V → V
  /-- A conditional with constant parts whose test validation does not decide. -/
  conditional : V → V → V → V
  /-- The constant that stands for a declared shape, if the domain puts one in its place. -/
  splice : Shape → Option V

end RuleLang
