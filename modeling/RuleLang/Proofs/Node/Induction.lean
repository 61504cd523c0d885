import RuleLang.Node.Basic

/-!
# Induction over trees

* `Node.induction`: to prove a property of all trees, prove it of each kind of node from the property
  of its subtrees, of every one of a list of subtrees.
* `Node.induction_children`: the same where all kinds of nodes are treated alike.
-/

namespace RuleLang.Node

/-- Induction over trees, with the hypothesis for each tree of a list of subtrees. -/
@[elab_as_elim, induction_eliminator]
theorem induction {P : Node → Prop}
    (literal : ∀ w value verbatim, P (.literal w value verbatim))
    (identifier : ∀ w name, P (.identifier w name))
    (unary : ∀ w op operand, P operand → P (.unary w op operand))
    (binary : ∀ w op left right, P left → P right → P (.binary w op left right))
    (logical : ∀ w op operands, (∀ n ∈ operands, P n) → P (.logical w op operands))
    (array : ∀ w elements, (∀ n ∈ elements, P n) → P (.array w elements))
    (conditional : ∀ w test consequent alternate, P test → P consequent → P alternate →
      P (.conditional w test consequent alternate))
    (sequence : ∀ w expressions, (∀ n ∈ expressions, P n) → P (.sequence w expressions))
    (call : ∀ w callee arguments, P callee → (∀ n ∈ arguments, P n) → P (.call w callee arguments))
    (member : ∀ w object path, P object → P (.member w object path)) (node : Node) : P node :=
  @Node.rec P (fun nodes => ∀ n ∈ nodes, P n) literal identifier unary binary
    logical array conditional sequence call member (fun _ h => absurd h List.not_mem_nil)
    (fun _ _ head tail => List.forall_mem_cons.mpr ⟨head, tail⟩) node

/-- The depth of a list of trees bounds the depth of each of them. -/
theorem depth_le_deepest {node : Node} {nodes : List Node} (h : node ∈ nodes) :
    node.depth ≤ deepest nodes := by
  induction nodes with
  | nil => exact absurd h List.not_mem_nil
  | cons head rest ih =>
      simp only [deepest]
      rcases List.mem_cons.mp h with rfl | h
      · exact Nat.le_max_left _ _
      · exact Nat.le_trans (ih h) (Nat.le_max_right _ _)

/-- A list of trees is no deeper than a bound on the depth of each of them. -/
theorem deepest_le {nodes : List Node} {bound : Nat} (h : ∀ node ∈ nodes, node.depth ≤ bound) :
    deepest nodes ≤ bound := by
  induction nodes with
  | nil => exact Nat.zero_le bound
  | cons head rest ih =>
      simp only [deepest]
      exact Nat.max_le.mpr ⟨h head List.mem_cons_self, ih fun n hn => h n (List.mem_cons_of_mem _ hn)⟩

/-- A tree has at least one level. -/
theorem depth_pos (node : Node) : 0 < node.depth := by
  cases node with
  | literal w value verbatim => exact Nat.one_pos
  | identifier w name => exact Nat.one_pos
  | _ =>
      simp only [depth]
      omega

/-- A tree is deeper than the trees below its root. -/
theorem depth_lt_of_mem_children {child node : Node} (h : child ∈ node.children) :
    child.depth < node.depth := by
  cases node with
  | literal w value verbatim => exact absurd h List.not_mem_nil
  | identifier w name => exact absurd h List.not_mem_nil
  | call w callee arguments =>
      rcases List.mem_cons.mp h with rfl | h
      · simp only [depth]
        omega
      · have hdeepest := depth_le_deepest h
        simp only [depth]
        omega
  | logical w op nodes | array w nodes | sequence w nodes =>
      have hdeepest : child.depth ≤ deepest nodes := depth_le_deepest h
      simp only [depth]
      omega
  | _ =>
      simp only [children, List.mem_cons, List.not_mem_nil, or_false] at h
      simp only [depth]
      grind

/-- A tree is at most one node deeper than the trees below its root. -/
theorem depth_le_of_children {node : Node} {bound : Nat}
    (h : ∀ child ∈ node.children, child.depth ≤ bound) : node.depth ≤ 1 + bound := by
  cases node with
  | literal w value verbatim => exact Nat.le_add_right 1 bound
  | identifier w name => exact Nat.le_add_right 1 bound
  | call w callee arguments =>
      obtain ⟨hcallee, harguments⟩ := List.forall_mem_cons.mp h
      have hdeepest := deepest_le harguments
      simp only [depth]
      omega
  | logical w op nodes | array w nodes | sequence w nodes =>
      exact Nat.add_le_add_left (deepest_le h) 1
  | _ =>
      simp only [children, List.forall_mem_cons] at h
      simp only [depth]
      omega

/-- Induction over trees from the direct subtrees to the tree, for all kinds of nodes at once. -/
@[elab_as_elim]
theorem induction_children {P : Node → Prop}
    (step : ∀ node : Node, (∀ child ∈ node.children, P child) → P node) (node : Node) : P node :=
  step node fun child _ => induction_children step child
termination_by node.depth
decreasing_by exact depth_lt_of_mem_children ‹_›

end RuleLang.Node
