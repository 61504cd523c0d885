import RuleLang.Json.Basic

/-!
# Operators

Every operator has one symbol; a few have a second spelling that is read but never written.

* `UnaryOp`, `BinaryOp`, `LogicalOp`: the operators in front of an operand, between two operands and
  of a chain of operands.
* `UnaryOp.symbol` and the like: the written form.
* `UnaryOp.ofJson?` and the like: the operator that a document names.
* `LogicalOp.decides`: when an operand settles its chain.
-/

namespace RuleLang

/-- Operators in front of an operand. -/
inductive UnaryOp where
  | plus
  | minus
  | bitNot
  | not
  deriving DecidableEq

/-- Operators between two operands. -/
inductive BinaryOp where
  | power
  | multiply
  | divide
  | modulo
  | add
  | subtract
  | shiftLeft
  | shiftRight
  | shiftRightUnsigned
  | lessEq
  | greaterEq
  | less
  | greater
  | eq
  | notEq
  | bitAnd
  | bitXor
  | bitOr
  /-- Membership in a sequence. -/
  | within
  deriving DecidableEq

/-- Operators of a short-circuit chain. -/
inductive LogicalOp where
  | and
  | or
  deriving DecidableEq

/-- The name in a document: a text, or an object whose only member has that key and an empty value.
Inside a tree an empty object counts as an empty value as well. -/
def Json.choice? (inTree : Bool) : Json → Option String
  | .string s => some s
  | .object [(key, .null)] => some key
  | .object [(key, .object [])] => if inTree then some key else none
  | _ => none

namespace UnaryOp

/-- The written form. -/
def symbol : UnaryOp → String
  | plus => "+"
  | minus => "-"
  | bitNot => "~"
  | not => "!"

/-- All operators. -/
def all : List UnaryOp := [plus, minus, bitNot, not]

/-- The operator with a spelling. -/
def ofSymbol? (s : String) : Option UnaryOp :=
  all.find? fun op => op.symbol == s

/-- The operator that a document names. -/
def ofJson? (json : Json) (inTree : Bool) : Option UnaryOp :=
  (json.choice? inTree).bind ofSymbol?

end UnaryOp

namespace BinaryOp

/-- The written form. -/
def symbol : BinaryOp → String
  | power => "**"
  | multiply => "*"
  | divide => "/"
  | modulo => "%"
  | add => "+"
  | subtract => "-"
  | shiftLeft => "<<"
  | shiftRight => ">>"
  | shiftRightUnsigned => ">>>"
  | lessEq => "<="
  | greaterEq => ">="
  | less => "<"
  | greater => ">"
  | eq => "="
  | notEq => "!="
  | bitAnd => "&"
  | bitXor => "^"
  | bitOr => "|"
  | within => "in"

/-- All operators. -/
def all : List BinaryOp :=
  [power, multiply, divide, modulo, add, subtract, shiftLeft, shiftRight, shiftRightUnsigned, lessEq,
    greaterEq, less, greater, eq, notEq, bitAnd, bitXor, bitOr, within]

/-- The operator with a spelling. -/
def ofSymbol? (s : String) : Option BinaryOp :=
  if s = "==" then some eq
  else if s = "<>" then some notEq
  else all.find? fun op => op.symbol == s

/-- The operator that a document names. -/
def ofJson? (json : Json) (inTree : Bool) : Option BinaryOp :=
  (json.choice? inTree).bind ofSymbol?

end BinaryOp

namespace LogicalOp

/-- The written form. -/
def symbol : LogicalOp → String
  | and => "and"
  | or => "or"

/-- The operator with a spelling. -/
def ofSymbol? (s : String) : Option LogicalOp :=
  if s = "and" ∨ s = "&&" then some and
  else if s = "or" ∨ s = "||" then some or
  else none

/-- The operator that a document names. -/
def ofJson? (json : Json) (inTree : Bool) : Option LogicalOp :=
  (json.choice? inTree).bind ofSymbol?

/-- The truth value of the empty chain. -/
def neutral : LogicalOp → Bool
  | and => true
  | or => false

/-- Whether an operand of this truth value settles the chain. -/
def decides (op : LogicalOp) (truthy : Bool) : Bool :=
  truthy != op.neutral

end LogicalOp

end RuleLang
