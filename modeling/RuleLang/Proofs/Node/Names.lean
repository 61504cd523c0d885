import RuleLang.Proofs.Node.Induction

/-!
# Names in trees

* `Node.names`: the names that stand anywhere in a tree.
* `Node.mem_names_iff`: the names of a tree are its own and those of its direct subtrees.
-/

namespace RuleLang.Node

mutual

/-- The names that stand anywhere in a tree, from left to right. -/
def names : Node → List String
  | literal _ _ _ => []
  | identifier _ name => [name]
  | unary _ _ operand => names operand
  | binary _ _ left right => names left ++ names right
  | logical _ _ operands => namesOfAll operands
  | array _ elements => namesOfAll elements
  | conditional _ test consequent alternate => names test ++ names consequent ++ names alternate
  | sequence _ expressions => namesOfAll expressions
  | call _ callee arguments => names callee ++ namesOfAll arguments
  | member _ object _ => names object

/-- The names that stand anywhere in trees. -/
def namesOfAll : List Node → List String
  | [] => []
  | node :: rest => names node ++ namesOfAll rest

end

/-- The names in trees are those in each tree. -/
theorem mem_namesOfAll {name : String} {nodes : List Node} :
    name ∈ namesOfAll nodes ↔ ∃ node ∈ nodes, name ∈ node.names := by
  induction nodes with
  | nil => simp [namesOfAll]
  | cons node rest ih => simp [namesOfAll, ih]

/-- The names of a tree are its own, if it is one, and those of its direct subtrees. -/
theorem mem_names_iff {name : String} {node : Node} :
    name ∈ node.names ↔
      node.identifier? = some name ∨ ∃ child ∈ node.children, name ∈ child.names := by
  cases node <;> simp [names, identifier?, children, mem_namesOfAll, eq_comm]

/-- The names in a part of a tree are names in the tree. -/
theorem names_subset_of_mem {child node : Node} (mem : child ∈ node.children) :
    child.names ⊆ node.names :=
  fun _ hname => mem_names_iff.mpr (.inr ⟨child, mem, hname⟩)

end RuleLang.Node
