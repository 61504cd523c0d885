import RuleLang.Json.Printer
import RuleLang.Members
import RuleLang.Node.Basic
import RuleLang.Value.Document

/-!
# Trees as documents

A tree is an object whose member `type` names the kind of the root. It is written with its weight and,
where it is set, the verbatim mark of a literal; neither is ever read back.

* `Node.toJson`: a tree as a document.
* `Node.ofJson?`: the tree of a document.
* `Node.compactJson`: the text of a tree as a document.
-/

namespace RuleLang.Node

/-- The members of a node: its kind, its own members and its weight. -/
def document (kind : String) (members : List (String × Json)) (weight : Weight) : Json :=
  .object (("type", .string kind) :: members ++ [("weight", Json.ofNat weight.toNat)])

mutual

/-- A tree as a document. -/
def toJson : Node → Json
  | literal w value verbatim =>
    document "Literal"
      (("value", value.toJson) :: if verbatim then [("verbatim", .bool true)] else []) w
  | identifier w name => document "Identifier" [("name", .string name)] w
  | unary w op operand =>
    document "UnaryExpression" [("operator", .string op.symbol), ("operand", toJson operand)] w
  | binary w op left right =>
    document "BinaryExpression"
      [("operator", .string op.symbol), ("left", toJson left), ("right", toJson right)] w
  | logical w op operands =>
    document "LogicalExpression"
      [("operator", .string op.symbol), ("operands", .array (allToJson operands))] w
  | array w elements => document "ArrayExpression" [("elements", .array (allToJson elements))] w
  | conditional w test consequent alternate =>
    document "ConditionalExpression"
      [("test", toJson test), ("consequent", toJson consequent), ("alternate", toJson alternate)] w
  | sequence w expressions =>
    document "SequenceExpression" [("expressions", .array (allToJson expressions))] w
  | call w callee arguments =>
    document "CallExpression"
      [("callee", toJson callee), ("arguments", .array (allToJson arguments))] w
  | member w object path =>
    document "MemberExpression" [("object", toJson object), ("path", path.toJson)] w

/-- Trees as documents. -/
def allToJson : List Node → List Json
  | [] => []
  | node :: rest => toJson node :: allToJson rest

end

/-- A tree as the text of a document without blanks. -/
def compactJson (node : Node) : String :=
  node.toJson.compact

/-- The kinds of nodes, in the order by which a document may also number them. -/
def kinds : List String :=
  ["Literal", "Identifier", "UnaryExpression", "BinaryExpression", "LogicalExpression",
    "ArrayExpression", "ConditionalExpression", "SequenceExpression", "CallExpression",
    "MemberExpression"]

/-- The kind that a document names or numbers. -/
def kind? : Json → Option String
  | .string s => some s
  | .integer (.ofNat n) => kinds[n]?
  | _ => none

/-- One member of a node's document, read in every way that a node may need it. -/
structure Part where
  json : Json
  node? : Option Node
  nodes? : Option (List Node)

/-- The tree with the given parts. A part that its kind does not need may have any form. -/
def ofParts? (parts : List (String × Part)) : Option Node := do
  let part? := fun key => Members.find? key parts
  let node? := fun key => (part? key).bind Part.node?
  let nodes? := fun key => (part? key).bind Part.nodes?
  let json? := fun key => (part? key).map Part.json
  match ← (json? "type").bind kind? with
  | "Literal" => return literal 0 (Value.ofJson (← json? "value")) false
  | "Identifier" => return identifier 0 (← (← json? "name").string?)
  | "UnaryExpression" =>
    return unary 0 (← UnaryOp.ofJson? (← json? "operator") true) (← node? "operand")
  | "BinaryExpression" =>
    return binary 0 (← BinaryOp.ofJson? (← json? "operator") true) (← node? "left") (← node? "right")
  | "LogicalExpression" =>
    return logical 0 (← LogicalOp.ofJson? (← json? "operator") true) (← nodes? "operands")
  | "ArrayExpression" => return array 0 (← nodes? "elements")
  | "ConditionalExpression" =>
    return conditional 0 (← node? "test") (← node? "consequent") (← node? "alternate")
  | "SequenceExpression" => return sequence 0 (← nodes? "expressions")
  | "CallExpression" => return call 0 (← node? "callee") (← nodes? "arguments")
  | "MemberExpression" => return member 0 (← node? "object") (← Path.ofJson? (← json? "path"))
  | _ => none

mutual

/-- The tree of a document. -/
def ofJson? : Json → Option Node
  | .object members => ofParts? (parts members)
  | _ => none

/-- The members of an object, each read in every way. -/
def parts : List (String × Json) → List (String × Part)
  | [] => []
  | (key, json) :: rest => (key, ⟨json, ofJson? json, nodesOf? json⟩) :: parts rest

/-- The trees of an array. -/
def nodesOf? : Json → Option (List Node)
  | .array items => ofItems? items
  | _ => none

/-- The trees of documents, if all are trees. -/
def ofItems? : List Json → Option (List Node)
  | [] => some []
  | item :: rest =>
    match ofJson? item, ofItems? rest with
    | some node, some nodes => some (node :: nodes)
    | _, _ => none

end

end RuleLang.Node
