import RuleLang.Operator
import RuleLang.Value.Relations

/-!
# Operators on values

* `UnaryOp.apply`, `BinaryOp.apply`: the value of an operator at values; every operator has one at
  all values.
* `LogicalOp.combine`: the value of a chain whose operands are known.
-/

namespace RuleLang

namespace UnaryOp

/-- The value of an operator in front of a value. -/
def apply : UnaryOp → Value → Value
  | plus, v => .number v.toNumber
  | minus, v => .number (-v.toNumber)
  | bitNot, v => .number (Number.ofInt32 (~~~ v.toInt32))
  | not, v => .bool (!v.isTruthy)

end UnaryOp

namespace Value

/-- Values by which `+` joins texts instead of adding numbers. -/
def joins : Value → Bool
  | string _ => true
  | array _ => true
  | object _ => true
  | _ => false

/-- The value of `+`: the joined texts if one side is a text, array or object, else the sum. -/
def add (a b : Value) : Value :=
  if a.joins || b.joins then string (a.text ++ b.text) else number (a.toNumber + b.toNumber)

/-- Whether a value is one of the items of a sequence. -/
def isWithin (v sequence : Value) : Bool :=
  sequence.toItems.any fun item => item.strictEq v

end Value

namespace BinaryOp

/-- The value of an operator between two values. Shifts count modulo 32. -/
def apply (op : BinaryOp) (a b : Value) : Value :=
  match op with
  | power => .number (Number.power a.toNumber b.toNumber)
  | multiply => .number (a.toNumber * b.toNumber)
  | divide => .number (a.toNumber / b.toNumber)
  | modulo => .number (Number.remainder a.toNumber b.toNumber)
  | add => a.add b
  | subtract => .number (a.toNumber - b.toNumber)
  | shiftLeft => .number (Number.ofInt32 (a.toUInt32 <<< b.toUInt32).toInt32)
  | shiftRight => .number (Number.ofInt32 (a.toInt32 >>> (b.toUInt32 % 32).toInt32))
  | shiftRightUnsigned => .number (Number.ofUInt32 (a.toUInt32 >>> b.toUInt32))
  | lessEq => .bool (a.compare? b == some .lt || a.compare? b == some .eq)
  | greaterEq => .bool (a.compare? b == some .gt || a.compare? b == some .eq)
  | less => .bool (a.compare? b == some .lt)
  | greater => .bool (a.compare? b == some .gt)
  | eq => .bool (a.looseEq b)
  | notEq => .bool (!a.looseEq b)
  | bitAnd => .number (Number.ofInt32 (a.toInt32 &&& b.toInt32))
  | bitXor => .number (Number.ofInt32 (a.toInt32 ^^^ b.toInt32))
  | bitOr => .number (Number.ofInt32 (a.toInt32 ||| b.toInt32))
  | within => .bool (a.isWithin b)

end BinaryOp

namespace LogicalOp

/-- The value of a chain: the first operand that decides it, else the last one, else the neutral truth
value. -/
def combine (op : LogicalOp) (operands : List Value) : Value :=
  match operands.find? (fun v => op.decides v.isTruthy) with
  | some v => v
  | none => operands.getLast?.getD (.bool op.neutral)

end LogicalOp

end RuleLang
