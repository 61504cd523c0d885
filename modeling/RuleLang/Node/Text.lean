import RuleLang.Node.Basic
import RuleLang.Text.Quoted
import RuleLang.Value.Text

/-!
# The text of a tree

A compact infix form for people. It is not read back.

* `Node.text`: the text of a tree.
-/

namespace RuleLang.Node

/-- The text of a literal: strings are quoted. -/
def literalText : Value → String
  | .string s => Text.displayQuoted s
  | value => value.text

mutual

/-- The text of a tree. -/
def text : Node → String
  | literal _ value _ => literalText value
  | identifier _ name => name
  | unary _ op operand => op.symbol ++ text operand
  | binary _ op left right => "(" ++ text left ++ " " ++ op.symbol ++ " " ++ text right ++ ")"
  | logical _ op operands => "(" ++ joinedText (" " ++ op.symbol ++ " ") operands ++ ")"
  | array _ elements => "[" ++ joinedText ", " elements ++ "]"
  | conditional _ test consequent alternate =>
    "(" ++ text test ++ " ? " ++ text consequent ++ " : " ++ text alternate ++ ")"
  | sequence _ expressions => "(" ++ joinedText ", " expressions ++ ")"
  | call _ callee arguments => text callee ++ "(" ++ joinedText ", " arguments ++ ")"
  | member _ object path => text object ++ path.text

/-- The texts of trees with a separator between them. -/
def joinedText (separator : String) : List Node → String
  | [] => ""
  | [node] => text node
  | node :: next :: rest => text node ++ separator ++ joinedText separator (next :: rest)

end

end RuleLang.Node
