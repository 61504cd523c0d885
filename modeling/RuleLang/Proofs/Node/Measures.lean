import Mathlib.Data.List.Forall2
import RuleLang.Proofs.Node.Subtree

/-!
# How large a tree is

Three measures of a tree: its nodes, its depth, and what it costs as it stands. A tree *shrinks* to
another one when none of the three grows. Trees shrink as their parts do, whatever their weights, and a
part takes the place of a tree without making it larger.

* `Node.size`, `Node.plainCost`: the number of nodes, and the cost of a tree in which nothing is
  simplified.
* `Node.Shrinks`, `Node.ShrinkAll`: a tree, or a list of trees, that is no larger than another one.
* `Node.shrinks_of_mem_children`: a subtree is no larger than the tree.
* `Node.ShrinkAll.logical` and the like: trees of one kind shrink as their parts do.
-/

namespace RuleLang.Node

mutual

/-- The number of nodes of a tree. -/
def size : Node → Nat
  | literal _ _ _ => 1
  | identifier _ _ => 1
  | unary _ _ operand => 1 + size operand
  | binary _ _ left right => 1 + (size left + size right)
  | logical _ _ operands => 1 + totalSize operands
  | array _ elements => 1 + totalSize elements
  | conditional _ test consequent alternate => 1 + (size test + (size consequent + size alternate))
  | sequence _ expressions => 1 + totalSize expressions
  | call _ callee arguments => 1 + (size callee + totalSize arguments)
  | member _ object _ => 1 + size object

/-- The number of nodes of trees. -/
def totalSize : List Node → Nat
  | [] => 0
  | node :: rest => size node + totalSize rest

end

mutual

/-- What a tree costs if nothing in it is simplified, given what calls of each feature cost. A conditional
costs its test and the dearer of its branches. -/
def plainCost (declared : String → Weight) : Node → Nat
  | literal _ _ _ => 0
  | identifier _ _ => 1
  | unary _ _ operand => 1 + plainCost declared operand
  | binary _ _ left right => 1 + (plainCost declared left + plainCost declared right)
  | logical _ _ operands => 1 + totalPlainCost declared operands
  | array _ elements => 1 + totalPlainCost declared elements
  | conditional _ test consequent alternate =>
    1 + plainCost declared test + max (plainCost declared consequent) (plainCost declared alternate)
  | sequence _ expressions => 1 + totalPlainCost declared expressions
  | call _ callee arguments =>
    plainCost declared callee + 1 + totalPlainCost declared arguments +
      (callee.identifier?.map fun name => (declared name).toNat).getD 0
  | member _ object _ => 1 + plainCost declared object

/-- What trees cost together if nothing in them is simplified. -/
def totalPlainCost (declared : String → Weight) : List Node → Nat
  | [] => 0
  | node :: rest => plainCost declared node + totalPlainCost declared rest

end

mutual

/-- Whether the callees of all calls are names. -/
def calleesNamed : Node → Bool
  | literal _ _ _ => true
  | identifier _ _ => true
  | unary _ _ operand => calleesNamed operand
  | binary _ _ left right => calleesNamed left && calleesNamed right
  | logical _ _ operands => allCalleesNamed operands
  | array _ elements => allCalleesNamed elements
  | conditional _ test consequent alternate =>
    calleesNamed test && calleesNamed consequent && calleesNamed alternate
  | sequence _ expressions => allCalleesNamed expressions
  | call _ callee arguments => callee.identifier?.isSome && allCalleesNamed arguments
  | member _ object _ => calleesNamed object

/-- Whether the callees of all calls in trees are names. -/
def allCalleesNamed : List Node → Bool
  | [] => true
  | node :: rest => calleesNamed node && allCalleesNamed rest

end

/-- The callees in trees are names if those in each tree are. -/
theorem allCalleesNamed_iff {nodes : List Node} :
    allCalleesNamed nodes ↔ ∀ node ∈ nodes, node.calleesNamed := by
  induction nodes with
  | nil => simp [allCalleesNamed]
  | cons node rest ih => simp [allCalleesNamed, ih]

variable {declared : String → Weight}

/-- A tree is no larger than another one: it has no more nodes, is no deeper and costs no more. -/
structure Shrinks (declared : String → Weight) (after before : Node) : Prop where
  size_le : after.size ≤ before.size
  depth_le : after.depth ≤ before.depth
  cost_le : after.plainCost declared ≤ before.plainCost declared

/-- Trees are together no larger than others: they have no more nodes, the deepest of them is no deeper,
and they cost no more. -/
structure ShrinkAll (declared : String → Weight) (after before : List Node) : Prop where
  size_le : totalSize after ≤ totalSize before
  depth_le : deepest after ≤ deepest before
  cost_le : totalPlainCost declared after ≤ totalPlainCost declared before

/-- A tree is no larger than itself. -/
theorem Shrinks.refl (node : Node) : Shrinks declared node node :=
  ⟨Nat.le_refl _, Nat.le_refl _, Nat.le_refl _⟩

/-- What is no larger than a tree is no larger than what the tree is no larger than. -/
theorem Shrinks.trans {a b c : Node} (h : Shrinks declared a b) (h' : Shrinks declared b c) :
    Shrinks declared a c :=
  ⟨Nat.le_trans h.size_le h'.size_le, Nat.le_trans h.depth_le h'.depth_le,
    Nat.le_trans h.cost_le h'.cost_le⟩

/-- Trees are together no larger than themselves. -/
theorem ShrinkAll.refl (nodes : List Node) : ShrinkAll declared nodes nodes :=
  ⟨Nat.le_refl _, Nat.le_refl _, Nat.le_refl _⟩

/-- What is no larger than some trees is no larger than what these are no larger than. -/
theorem ShrinkAll.trans {as bs cs : List Node} (h : ShrinkAll declared as bs)
    (h' : ShrinkAll declared bs cs) : ShrinkAll declared as cs :=
  ⟨Nat.le_trans h.size_le h'.size_le, Nat.le_trans h.depth_le h'.depth_le,
    Nat.le_trans h.cost_le h'.cost_le⟩

-- The equations of the measures are derived once, ahead of the lemmas that rewrite with them.
attribute [local simp] size totalSize plainCost totalPlainCost

/-! ### Lists of trees -/

section Lists

variable {as bs cs ds : List Node}

/-- The size of trees adds up. -/
theorem totalSize_append (as bs : List Node) :
    totalSize (as ++ bs) = totalSize as + totalSize bs := by
  induction as with
  | nil => simp [totalSize]
  | cons a as ih => simp [totalSize, ih, Nat.add_assoc]

/-- The deepest of all trees is the deepest of one part or of the other. -/
theorem deepest_append (as bs : List Node) : deepest (as ++ bs) = max (deepest as) (deepest bs) := by
  induction as with
  | nil => simp [deepest]
  | cons a as ih => simp [deepest, ih, Nat.max_assoc]

/-- The cost of trees adds up. -/
theorem totalPlainCost_append (as bs : List Node) :
    totalPlainCost declared (as ++ bs) = totalPlainCost declared as + totalPlainCost declared bs := by
  induction as with
  | nil => simp [totalPlainCost]
  | cons a as ih => simp [totalPlainCost, ih, Nat.add_assoc]

/-- Trees that are no larger part by part are no larger together. -/
theorem ShrinkAll.append (h : ShrinkAll declared as bs) (h' : ShrinkAll declared cs ds) :
    ShrinkAll declared (as ++ cs) (bs ++ ds) := by
  constructor
  · rw [totalSize_append, totalSize_append]
    exact Nat.add_le_add h.size_le h'.size_le
  · have hfirst := h.depth_le
    have hsecond := h'.depth_le
    rw [deepest_append, deepest_append]
    omega
  · rw [totalPlainCost_append, totalPlainCost_append]
    exact Nat.add_le_add h.cost_le h'.cost_le

/-- A tree alone counts like the tree. -/
theorem Shrinks.single {a b : Node} (h : Shrinks declared a b) : ShrinkAll declared [a] [b] := by
  constructor
  · exact Nat.add_le_add_right h.size_le 0
  · have hdepth := h.depth_le
    simp only [deepest]
    omega
  · exact Nat.add_le_add_right h.cost_le 0

/-- Fewer trees are no larger. -/
theorem shrinkAll_of_sublist (h : List.Sublist as bs) : ShrinkAll declared as bs := by
  induction h with
  | slnil => exact .refl []
  | cons a h ih =>
      constructor
      · exact Nat.le_trans ih.size_le (Nat.le_add_left _ _)
      · exact Nat.le_trans ih.depth_le (Nat.le_max_right _ _)
      · exact Nat.le_trans ih.cost_le (Nat.le_add_left _ _)
  | cons_cons a h ih => exact (Shrinks.refl a).single.append ih

/-- Trees that are no larger one by one are no larger together. -/
theorem shrinkAll_of_forall₂ (h : List.Forall₂ (fun b a => Shrinks declared a b) bs as) :
    ShrinkAll declared as bs := by
  induction h with
  | nil => exact .refl []
  | cons head tail ih => exact head.single.append ih

/-- What trees contribute is no larger than they are, if that is so of each of them. -/
theorem shrinkAll_flatMap {parts : Node → List Node} (h : ∀ node ∈ bs, ShrinkAll declared (parts node) [node]) :
    ShrinkAll declared (bs.flatMap parts) bs := by
  induction bs with
  | nil => exact .refl []
  | cons b bs ih =>
      rw [List.forall_mem_cons] at h
      rw [List.flatMap_cons]
      exact h.1.append (ih h.2)

/-- One of several trees is no larger than all of them. -/
theorem shrinkAll_singleton_of_mem {a : Node} (h : a ∈ bs) : ShrinkAll declared [a] bs :=
  shrinkAll_of_sublist (List.singleton_sublist.mpr h)

end Lists

/-! ### Trees of one kind -/

/-- A tree has at least one node. -/
theorem size_pos (node : Node) : 0 < node.size := by
  cases node with
  | literal w value verbatim | identifier w name => exact Nat.one_pos
  | _ =>
      simp only [size]
      omega

/-- Nothing is smaller than a literal. -/
theorem shrinks_ofValue (value : Value) (verbatim : Bool) (node : Node) :
    Shrinks declared (ofValue value verbatim) node :=
  ⟨node.size_pos, node.depth_pos, Nat.zero_le _⟩

section Kinds

variable {w w' : Weight} {op : LogicalOp} {nodes nodes' : List Node} {x x' y y' z z' : Node}

/-- An operator is no larger over a smaller operand. -/
theorem Shrinks.unary {op : UnaryOp} (h : Shrinks declared x x') :
    Shrinks declared (.unary w op x) (.unary w' op x') :=
  ⟨Nat.add_le_add_left h.size_le 1, Nat.add_le_add_left h.depth_le 1, Nat.add_le_add_left h.cost_le 1⟩

/-- A member access is no larger over a smaller object. -/
theorem Shrinks.member {path : Path} (h : Shrinks declared x x') :
    Shrinks declared (.member w x path) (.member w' x' path) :=
  ⟨Nat.add_le_add_left h.size_le 1, Nat.add_le_add_left h.depth_le 1, Nat.add_le_add_left h.cost_le 1⟩

/-- An operator is no larger between smaller operands. -/
theorem Shrinks.binary {op : BinaryOp} (h : Shrinks declared x x') (h' : Shrinks declared y y') :
    Shrinks declared (.binary w op x y) (.binary w' op x' y') := by
  obtain ⟨hsize, hdepth, hcost⟩ := h
  obtain ⟨hsize', hdepth', hcost'⟩ := h'
  constructor
  · simp only [size]; omega
  · simp only [depth]; omega
  · simp only [plainCost]; omega

/-- A conditional is no larger over smaller parts. -/
theorem Shrinks.conditional (h : Shrinks declared x x') (h' : Shrinks declared y y')
    (h'' : Shrinks declared z z') :
    Shrinks declared (.conditional w x y z) (.conditional w' x' y' z') := by
  obtain ⟨hsize, hdepth, hcost⟩ := h
  obtain ⟨hsize', hdepth', hcost'⟩ := h'
  obtain ⟨hsize'', hdepth'', hcost''⟩ := h''
  constructor
  · simp only [size]; omega
  · simp only [depth]; omega
  · simp only [plainCost]; omega

/-- A chain is no larger over smaller operands. -/
theorem ShrinkAll.logical (h : ShrinkAll declared nodes nodes') :
    Shrinks declared (.logical w op nodes) (.logical w' op nodes') :=
  ⟨Nat.add_le_add_left h.size_le 1, Nat.add_le_add_left h.depth_le 1, Nat.add_le_add_left h.cost_le 1⟩

/-- An array is no larger over smaller elements. -/
theorem ShrinkAll.array (h : ShrinkAll declared nodes nodes') :
    Shrinks declared (.array w nodes) (.array w' nodes') :=
  ⟨Nat.add_le_add_left h.size_le 1, Nat.add_le_add_left h.depth_le 1, Nat.add_le_add_left h.cost_le 1⟩

/-- A sequence is no larger over smaller expressions. -/
theorem ShrinkAll.sequence (h : ShrinkAll declared nodes nodes') :
    Shrinks declared (.sequence w nodes) (.sequence w' nodes') :=
  ⟨Nat.add_le_add_left h.size_le 1, Nat.add_le_add_left h.depth_le 1, Nat.add_le_add_left h.cost_le 1⟩

/-- Calls of one feature shrink as their arguments do. -/
theorem ShrinkAll.call {u u' : Weight} {name : String} (h : ShrinkAll declared nodes nodes') :
    Shrinks declared (.call w (.identifier u name) nodes) (.call w' (.identifier u' name) nodes') := by
  obtain ⟨hsize, hdepth, hcost⟩ := h
  constructor
  · simp only [size]; omega
  · simp only [depth]; omega
  · simp only [plainCost, identifier?]; omega

/-- The parts of a tree are together no larger than the tree, where it adds up what they cost. -/
theorem shrinkAll_logical : ShrinkAll declared nodes [.logical w op nodes] := by
  constructor
  · simp only [totalSize, size]; omega
  · simp only [deepest, depth]; omega
  · simp only [totalPlainCost, plainCost]; omega

end Kinds

/-! ### Subtrees -/

/-- A tree has one node more than its direct subtrees together. -/
theorem size_eq (node : Node) : node.size = 1 + totalSize node.children := by
  cases node <;> simp [size, children, totalSize]

/-- A subtree costs no more than the tree. -/
theorem plainCost_le_of_mem_children {child node : Node} (h : child ∈ node.children) :
    child.plainCost declared ≤ node.plainCost declared := by
  have among {nodes : List Node} (hmem : child ∈ nodes) :
      child.plainCost declared ≤ totalPlainCost declared nodes := by
    have shrinks : ShrinkAll declared [child] nodes := shrinkAll_singleton_of_mem hmem
    simpa [totalPlainCost] using shrinks.cost_le
  cases node with
  | literal w value verbatim | identifier w name => exact absurd h List.not_mem_nil
  | logical w op nodes | array w nodes | sequence w nodes =>
      have hcost : child.plainCost declared ≤ totalPlainCost declared nodes := among h
      simp only [plainCost]
      omega
  | call w callee arguments =>
      have hcost : child.plainCost declared ≤
          callee.plainCost declared + totalPlainCost declared arguments := among h
      simp only [plainCost]
      omega
  | _ =>
      simp only [children, List.mem_cons, List.not_mem_nil, or_false] at h
      simp only [plainCost]
      grind

/-- A subtree is no larger than the tree. -/
theorem shrinks_of_mem_children {child node : Node} (h : child ∈ node.children) :
    Shrinks declared child node := by
  refine ⟨?_, Nat.le_of_lt (depth_lt_of_mem_children h), plainCost_le_of_mem_children h⟩
  have shrinks : ShrinkAll declared [child] node.children := shrinkAll_singleton_of_mem h
  have hsize := shrinks.size_le
  rw [size_eq node]
  simp only [totalSize] at hsize
  omega

end RuleLang.Node
