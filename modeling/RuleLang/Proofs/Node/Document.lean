import RuleLang.Proofs.Node.Unmarked
import RuleLang.Proofs.Value.Document
import RuleLang.Sample

/-!
# Trees written and read again

Writing a tree as a document and reading it again gives the tree without its weights and verbatim
marks, and with its literals as a document keeps values.

* `Node.erase`: a tree without what a document does not bring back.
* `Node.ofJson?_toJson`: writing and reading a tree erases it.
* `Node.codec_erases`: this together with the fact that nothing that is read is marked.
-/

namespace RuleLang

/-! ### Operators and paths -/

/-- The symbol of an operator in front of an operand is read back. -/
theorem UnaryOp.ofJson?_symbol (op : UnaryOp) (inTree : Bool) :
    UnaryOp.ofJson? (.string op.symbol) inTree = some op := by
  cases op <;> rfl

/-- The symbol of an operator between operands is read back. -/
theorem BinaryOp.ofJson?_symbol (op : BinaryOp) (inTree : Bool) :
    BinaryOp.ofJson? (.string op.symbol) inTree = some op := by
  cases op <;> rfl

/-- The symbol of an operator of chains is read back. -/
theorem LogicalOp.ofJson?_symbol (op : LogicalOp) (inTree : Bool) :
    LogicalOp.ofJson? (.string op.symbol) inTree = some op := by
  cases op <;> rfl

/-- A number stays an index and a text stays a key, also one of digits. -/
theorem Segment.ofJson?_toJson (segment : Segment) : ofJson? segment.toJson = some segment := by
  cases segment <;> rfl

/-- A path is read back. -/
theorem Path.ofJson?_toJson (path : Path) : ofJson? path.toJson = some path := by
  rw [toJson, ofJson?, List.mapM_map, show Segment.ofJson? ∘ Segment.toJson = some from
    funext Segment.ofJson?_toJson]
  induction path with
  | nil => rfl
  | cons segment rest ih => rw [List.mapM_cons, ih]; rfl

namespace Node

mutual

/-- A tree as it is brought back by a document: with weight zero and no verbatim mark at every node,
and with each literal as a document keeps it. -/
def erase : Node → Node
  | literal _ value _ => literal 0 value.erase false
  | identifier _ name => identifier 0 name
  | unary _ op operand => unary 0 op (erase operand)
  | binary _ op left right => binary 0 op (erase left) (erase right)
  | logical _ op operands => logical 0 op (eraseAll operands)
  | array _ elements => array 0 (eraseAll elements)
  | conditional _ test consequent alternate =>
    conditional 0 (erase test) (erase consequent) (erase alternate)
  | sequence _ expressions => sequence 0 (eraseAll expressions)
  | call _ callee arguments => call 0 (erase callee) (eraseAll arguments)
  | member _ object path => member 0 (erase object) path

/-- Trees as they are brought back by documents. -/
def eraseAll : List Node → List Node
  | [] => []
  | node :: rest => erase node :: eraseAll rest

end

/-! ### Reading what was written -/

/-- Members are read one after the other. -/
theorem parts_append (members others : List (String × Json)) :
    parts (members ++ others) = parts members ++ parts others := by
  induction members with
  | nil => rfl
  | cons m rest ih => rw [List.cons_append, parts, ih, parts, List.cons_append]

/-- The document of a node is read by its members; its kind and its weight are no trees. -/
theorem ofJson?_document (kind : String) (members : List (String × Json)) (weight : Weight) :
    ofJson? (document kind members weight) =
      ofParts? (("type", ⟨.string kind, none, none⟩) :: parts members ++
        [("weight", ⟨Json.ofNat weight.toNat, none, none⟩)]) := by
  rw [document, ofJson?, List.cons_append, parts, parts_append]
  rfl

mutual

/-- Writing and reading a tree erases it. -/
theorem ofJson?_toJson : ∀ node : Node, ofJson? node.toJson = some node.erase
  | literal w value verbatim => by
      rw [toJson, ofJson?_document, erase]
      simp [ofParts?, kind?, parts, Members.find?, Value.ofJson_toJson]
  | identifier w name => by
      rw [toJson, ofJson?_document, erase]
      simp [ofParts?, kind?, parts, Members.find?, Json.string?]
  | unary w op operand => by
      rw [toJson, ofJson?_document, erase]
      simp [ofParts?, kind?, parts, Members.find?, UnaryOp.ofJson?_symbol, ofJson?_toJson operand]
  | binary w op left right => by
      rw [toJson, ofJson?_document, erase]
      simp [ofParts?, kind?, parts, Members.find?, BinaryOp.ofJson?_symbol, ofJson?_toJson left,
        ofJson?_toJson right]
  | logical w op operands => by
      rw [toJson, ofJson?_document, erase]
      simp [ofParts?, kind?, parts, Members.find?, LogicalOp.ofJson?_symbol, nodesOf?,
        ofItems?_allToJson operands]
  | array w elements => by
      rw [toJson, ofJson?_document, erase]
      simp [ofParts?, kind?, parts, Members.find?, nodesOf?, ofItems?_allToJson elements]
  | conditional w test consequent alternate => by
      rw [toJson, ofJson?_document, erase]
      simp [ofParts?, kind?, parts, Members.find?, ofJson?_toJson test, ofJson?_toJson consequent,
        ofJson?_toJson alternate]
  | sequence w expressions => by
      rw [toJson, ofJson?_document, erase]
      simp [ofParts?, kind?, parts, Members.find?, nodesOf?, ofItems?_allToJson expressions]
  | call w callee arguments => by
      rw [toJson, ofJson?_document, erase]
      simp [ofParts?, kind?, parts, Members.find?, nodesOf?, ofJson?_toJson callee,
        ofItems?_allToJson arguments]
  | member w object path => by
      rw [toJson, ofJson?_document, erase]
      simp [ofParts?, kind?, parts, Members.find?, ofJson?_toJson object, Path.ofJson?_toJson]

/-- Trees are read back, each without its weight and mark. -/
theorem ofItems?_allToJson : ∀ nodes : List Node, ofItems? (allToJson nodes) = some (eraseAll nodes)
  | [] => rfl
  | node :: rest => by
      rw [allToJson, ofItems?, ofJson?_toJson node, ofItems?_allToJson rest, eraseAll]

end

/-- Writing and reading a tree erases it, and nothing that is read from any document is marked. -/
theorem codec_erases :
    (∀ node : Node, ofJson? node.toJson = some node.erase) ∧
      ∀ (json : Json) (node : Node), ofJson? json = some node → node.Unmarked :=
  ⟨ofJson?_toJson, fun _ _ => unmarked_of_ofJson?⟩

end Node

namespace Sample

/-- A document of a call whose argument claims to be verbatim and to have a weight. -/
def markedDocument : Json :=
  .object [("type", .string "CallExpression"), ("weight", .integer 7),
    ("callee", .object [("type", .string "Identifier"), ("name", .string "count"),
      ("weight", .integer 5)]),
    ("arguments", .array [.object [("type", .string "Literal"), ("value", .string "1 OR 1=1"),
      ("verbatim", .bool true), ("weight", .integer 3)]])]

/-- The text of the argument is a plain value when it is read, in a call without weights. -/
theorem codec_erases_markedDocument :
    Node.ofJson? markedDocument =
        some (.call 0 (.identifier 0 "count") [.literal 0 (.string "1 OR 1=1") false]) ∧
      (Node.call 0 (.identifier 0 "count") [.literal 0 (.string "1 OR 1=1") false]).Unmarked := by
  have hread : Node.ofJson? markedDocument =
      some (.call 0 (.identifier 0 "count") [.literal 0 (.string "1 OR 1=1") false]) := by rfl
  exact ⟨hread, Node.codec_erases.2 markedDocument _ hread⟩

end Sample

end RuleLang
