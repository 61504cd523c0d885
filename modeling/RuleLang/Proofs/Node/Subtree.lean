import RuleLang.Proofs.Node.Positions

/-!
# Subtrees

* `Node.Subtree`: a tree stands in another one, as the tree itself or below its root.
* `Node.operands`: the direct subtrees that are evaluated.
* `Node.valueNames_subset`: the names that an operand uses as values are used so by the whole tree.
-/

namespace RuleLang.Node

/-- A tree stands in another one: it is that tree, or stands in one of the direct subtrees. -/
inductive Subtree (part : Node) : Node → Prop
  | root : Subtree part part
  | child {child node : Node} (mem : child ∈ node.children) (h : Subtree part child) :
      Subtree part node

variable {part node : Node}

/-- A subtree of a subtree is a subtree. -/
theorem Subtree.trans {inner : Node} (h : Subtree inner part) (h' : Subtree part node) :
    Subtree inner node := by
  induction h' with
  | root => exact h
  | child mem _ ih => exact .child mem ih

/-- The direct subtrees that are evaluated: all but the callee of a call. -/
def operands : Node → List Node
  | call _ _ arguments => arguments
  | node => node.children

/-- The operands of a node are among its children. -/
theorem operands_subset (node : Node) : node.operands ⊆ node.children := by
  cases node with
  | call w callee arguments => exact List.subset_cons_self callee arguments
  | _ => exact List.Subset.refl _

/-- The names that an operand uses as values are used so by the tree. -/
theorem valueNames_subset (h : part ∈ node.operands) : part.valueNames ⊆ node.valueNames := by
  intro name hname
  have hall {nodes : List Node} (hmem : part ∈ nodes) : name ∈ valueNamesOfAll nodes :=
    mem_valueNamesOfAll.mpr ⟨part, hmem, hname⟩
  cases node with
  | literal w value verbatim => exact absurd h List.not_mem_nil
  | identifier w name => exact absurd h List.not_mem_nil
  | unary w op operand =>
      obtain rfl := List.mem_singleton.mp h
      exact hname
  | binary w op left right =>
      have h : part = left ∨ part = right := by simpa [operands, children] using h
      rw [valueNames, List.mem_append]
      rcases h with rfl | rfl
      · exact .inl hname
      · exact .inr hname
  | logical w op operands => exact hall h
  | array w elements => exact hall h
  | conditional w test consequent alternate =>
      have h : part = test ∨ part = consequent ∨ part = alternate := by
        simpa [operands, children] using h
      rw [valueNames, List.mem_append, List.mem_append]
      rcases h with rfl | rfl | rfl
      · exact .inl (.inl hname)
      · exact .inl (.inr hname)
      · exact .inr hname
  | sequence w expressions => exact hall h
  | call w callee arguments => exact List.mem_append_right _ (hall h)
  | member w object path =>
      obtain rfl := List.mem_singleton.mp h
      exact hname

end RuleLang.Node
