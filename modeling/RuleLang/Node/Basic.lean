import RuleLang.Operator
import RuleLang.Path
import RuleLang.Value.Basic
import RuleLang.Weight

/-!
# Rule trees

A rule is a tree of literals, names, operators, arrays, conditionals, sequences, calls and member
accesses. Every node carries a weight, its estimated cost; a tree that was just read has weight zero
everywhere. A literal is *verbatim* when its value is text that a target language emits unchanged.

* `Node`: a tree.
* `Node.children`, `Node.depth`, `Node.literals`: views of a tree.
* `Node.constant?`: the value of a literal that is not verbatim.
-/

namespace RuleLang

/-- A rule tree. -/
inductive Node where
  | literal (weight : Weight) (value : Value) (verbatim : Bool)
  | identifier (weight : Weight) (name : String)
  | unary (weight : Weight) (op : UnaryOp) (operand : Node)
  | binary (weight : Weight) (op : BinaryOp) (left right : Node)
  | logical (weight : Weight) (op : LogicalOp) (operands : List Node)
  | array (weight : Weight) (elements : List Node)
  | conditional (weight : Weight) (test consequent alternate : Node)
  | sequence (weight : Weight) (expressions : List Node)
  | call (weight : Weight) (callee : Node) (arguments : List Node)
  | member (weight : Weight) (object : Node) (path : Path)

namespace Node

/-- A literal as it is read or folded: without weight. -/
def ofValue (value : Value) (verbatim : Bool) : Node :=
  literal 0 value verbatim

instance : Inhabited Node := ⟨ofValue .undefined false⟩

/-- The weight of the root. -/
def weight : Node → Weight
  | literal w _ _ => w
  | identifier w _ => w
  | unary w _ _ => w
  | binary w _ _ _ => w
  | logical w _ _ => w
  | array w _ => w
  | conditional w _ _ _ => w
  | sequence w _ => w
  | call w _ _ => w
  | member w _ _ => w

/-- The same tree with another weight at the root. -/
def withWeight (w : Weight) : Node → Node
  | literal _ value verbatim => literal w value verbatim
  | identifier _ name => identifier w name
  | unary _ op operand => unary w op operand
  | binary _ op left right => binary w op left right
  | logical _ op operands => logical w op operands
  | array _ elements => array w elements
  | conditional _ test consequent alternate => conditional w test consequent alternate
  | sequence _ expressions => sequence w expressions
  | call _ callee arguments => call w callee arguments
  | member _ object path => member w object path

/-- The name of the kind of the root. -/
def typeName : Node → String
  | literal _ _ _ => "Literal"
  | identifier _ _ => "Identifier"
  | unary _ _ _ => "UnaryExpression"
  | binary _ _ _ _ => "BinaryExpression"
  | logical _ _ _ => "LogicalExpression"
  | array _ _ => "ArrayExpression"
  | conditional _ _ _ _ => "ConditionalExpression"
  | sequence _ _ => "SequenceExpression"
  | call _ _ _ => "CallExpression"
  | member _ _ _ => "MemberExpression"

/-- The direct subtrees, in the order of evaluation. -/
def children : Node → List Node
  | literal _ _ _ => []
  | identifier _ _ => []
  | unary _ _ operand => [operand]
  | binary _ _ left right => [left, right]
  | logical _ _ operands => operands
  | array _ elements => elements
  | conditional _ test consequent alternate => [test, consequent, alternate]
  | sequence _ expressions => expressions
  | call _ callee arguments => callee :: arguments
  | member _ object _ => [object]

/-- Whether a tree is a literal. -/
def isLiteral : Node → Bool
  | literal _ _ _ => true
  | _ => false

/-- The value of a literal, and whether it is verbatim. -/
def literal? : Node → Option (Value × Bool)
  | literal _ value verbatim => some (value, verbatim)
  | _ => none

/-- The value of a literal that is not verbatim. Verbatim text is opaque to decisions. -/
def constant? : Node → Option Value
  | literal _ value false => some value
  | _ => none

/-- The name of an identifier. -/
def identifier? : Node → Option String
  | identifier _ name => some name
  | _ => none

mutual

/-- The number of nodes on the longest way down; a leaf has depth one. -/
def depth : Node → Nat
  | literal _ _ _ => 1
  | identifier _ _ => 1
  | unary _ _ operand => 1 + depth operand
  | binary _ _ left right => 1 + max (depth left) (depth right)
  | logical _ _ operands => 1 + deepest operands
  | array _ elements => 1 + deepest elements
  | conditional _ test consequent alternate =>
    1 + max (depth test) (max (depth consequent) (depth alternate))
  | sequence _ expressions => 1 + deepest expressions
  | call _ callee arguments => 1 + max (depth callee) (deepest arguments)
  | member _ object _ => 1 + depth object

/-- The largest depth in a list of trees; zero for none. -/
def deepest : List Node → Nat
  | [] => 0
  | node :: rest => max (depth node) (deepest rest)

end

mutual

/-- The literals of a tree from left to right. -/
def literals : Node → List (Value × Bool)
  | literal _ value verbatim => [(value, verbatim)]
  | identifier _ _ => []
  | unary _ _ operand => literals operand
  | binary _ _ left right => literals left ++ literals right
  | logical _ _ operands => literalsOfAll operands
  | array _ elements => literalsOfAll elements
  | conditional _ test consequent alternate =>
    literals test ++ literals consequent ++ literals alternate
  | sequence _ expressions => literalsOfAll expressions
  | call _ callee arguments => literals callee ++ literalsOfAll arguments
  | member _ object _ => literals object

/-- The literals of trees from left to right. -/
def literalsOfAll : List Node → List (Value × Bool)
  | [] => []
  | node :: rest => literals node ++ literalsOfAll rest

end

end Node

end RuleLang
