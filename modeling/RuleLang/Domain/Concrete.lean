import RuleLang.Domain.Basic
import RuleLang.Value.Operation

/-!
# The domain of values

Constants are values, and operators act as they do in evaluation.

* `concreteDomain`: the domain of values.
-/

namespace RuleLang

/-- Constants are values; nothing is spliced. -/
def concreteDomain : Domain Value where
  name := "value"
  renderLiteral value _ := .ok value
  renderElement value _ := .ok value
  store value := (value, false)
  unary := UnaryOp.apply
  binary op a b := .ok (op.apply a b)
  logical := LogicalOp.combine
  array := .array
  conditional test consequent alternate := if test.isTruthy then consequent else alternate
  splice _ := none

end RuleLang
