import RuleLang.Node.Document
import RuleLang.Proofs.Node.Subtree

/-!
# Trees without marks

Weights and verbatim marks are assigned to a tree after it was read. A document may carry members for
them, but reading ignores these: a tree that was read has neither anywhere.

* `Node.Bare`: a root without weight and verbatim mark.
* `Node.Unmarked`: a tree with no such root in it.
* `Node.unmarked_of_ofJson?`: a tree that was read is unmarked.
-/

namespace RuleLang.Node

/-- A root of weight zero that is not a verbatim literal. -/
def Bare (node : Node) : Prop :=
  node.weight = 0 ∧ ∀ value verbatim, node.literal? = some (value, verbatim) → verbatim = false

/-- A tree without weight and verbatim mark at every node. -/
def Unmarked (node : Node) : Prop :=
  ∀ part : Node, part.Subtree node → part.Bare

variable {node : Node}

/-- A tree is unmarked when its root is bare and the trees below are unmarked. -/
theorem unmarked_of_children (hbare : node.Bare) (h : ∀ child ∈ node.children, child.Unmarked) :
    node.Unmarked := by
  intro part hpart
  cases hpart with
  | root => exact hbare
  | child mem hpart => exact h _ mem part hpart

/-- A root of weight zero is bare when it is not a literal. -/
theorem bare_of_literal?_eq_none (hweight : node.weight = 0) (h : node.literal? = none) :
    node.Bare := by
  refine ⟨hweight, fun value verbatim heq => ?_⟩
  rw [h] at heq
  cases heq

/-! ### Trees that were read -/

/-- What is read from a member is unmarked. -/
def Part.Unmarked (part : Part) : Prop :=
  (∀ node, part.node? = some node → node.Unmarked) ∧
    ∀ nodes, part.nodes? = some nodes → ∀ node ∈ nodes, node.Unmarked

/-- One case for each kind of node, in the order of the kinds. -/
theorem unmarked_of_ofParts? {parts : List (String × Part)}
    (hparts : ∀ part ∈ parts, part.2.Unmarked) (h : ofParts? parts = some node) : node.Unmarked := by
  have hnode (key : String) (n : Node) (hn : (Members.find? key parts).bind Part.node? = some n) :
      n.Unmarked := by
    obtain ⟨part, hpart, hn⟩ := Option.bind_eq_some_iff.mp hn
    exact (hparts _ (Members.mem_of_find? hpart)).1 n hn
  have hnodes (key : String) (ns : List Node)
      (hns : (Members.find? key parts).bind Part.nodes? = some ns) : ∀ n ∈ ns, n.Unmarked := by
    obtain ⟨part, hpart, hns⟩ := Option.bind_eq_some_iff.mp hns
    exact (hparts _ (Members.mem_of_find? hpart)).2 ns hns
  simp only [ofParts?, Option.bind_eq_bind, Option.pure_def] at h
  obtain ⟨kind, -, h⟩ := Option.bind_eq_some_iff.mp h
  split at h
  · obtain ⟨value, -, h⟩ := Option.bind_eq_some_iff.mp h
    cases h
    refine unmarked_of_children ⟨rfl, fun _ _ heq => ?_⟩ (List.forall_mem_nil _)
    cases heq
    rfl
  · obtain ⟨json, -, h⟩ := Option.bind_eq_some_iff.mp h
    obtain ⟨name, -, h⟩ := Option.bind_eq_some_iff.mp h
    cases h
    exact unmarked_of_children (bare_of_literal?_eq_none rfl rfl) (List.forall_mem_nil _)
  · obtain ⟨json, -, h⟩ := Option.bind_eq_some_iff.mp h
    obtain ⟨op, -, h⟩ := Option.bind_eq_some_iff.mp h
    obtain ⟨operand, hoperand, h⟩ := Option.bind_eq_some_iff.mp h
    cases h
    refine unmarked_of_children (bare_of_literal?_eq_none rfl rfl) ?_
    exact List.forall_mem_singleton.mpr (hnode _ operand hoperand)
  · obtain ⟨json, -, h⟩ := Option.bind_eq_some_iff.mp h
    obtain ⟨op, -, h⟩ := Option.bind_eq_some_iff.mp h
    obtain ⟨left, hleft, h⟩ := Option.bind_eq_some_iff.mp h
    obtain ⟨right, hright, h⟩ := Option.bind_eq_some_iff.mp h
    cases h
    refine unmarked_of_children (bare_of_literal?_eq_none rfl rfl) ?_
    refine List.forall_mem_cons.mpr ⟨hnode _ left hleft, ?_⟩
    exact List.forall_mem_singleton.mpr (hnode _ right hright)
  · obtain ⟨json, -, h⟩ := Option.bind_eq_some_iff.mp h
    obtain ⟨op, -, h⟩ := Option.bind_eq_some_iff.mp h
    obtain ⟨operands, hoperands, h⟩ := Option.bind_eq_some_iff.mp h
    cases h
    exact unmarked_of_children (bare_of_literal?_eq_none rfl rfl) (hnodes _ operands hoperands)
  · obtain ⟨elements, helements, h⟩ := Option.bind_eq_some_iff.mp h
    cases h
    exact unmarked_of_children (bare_of_literal?_eq_none rfl rfl) (hnodes _ elements helements)
  · obtain ⟨test, htest, h⟩ := Option.bind_eq_some_iff.mp h
    obtain ⟨consequent, hconsequent, h⟩ := Option.bind_eq_some_iff.mp h
    obtain ⟨alternate, halternate, h⟩ := Option.bind_eq_some_iff.mp h
    cases h
    refine unmarked_of_children (bare_of_literal?_eq_none rfl rfl) ?_
    refine List.forall_mem_cons.mpr ⟨hnode _ test htest, ?_⟩
    refine List.forall_mem_cons.mpr ⟨hnode _ consequent hconsequent, ?_⟩
    exact List.forall_mem_singleton.mpr (hnode _ alternate halternate)
  · obtain ⟨expressions, hexpressions, h⟩ := Option.bind_eq_some_iff.mp h
    cases h
    exact unmarked_of_children (bare_of_literal?_eq_none rfl rfl) (hnodes _ expressions hexpressions)
  · obtain ⟨callee, hcallee, h⟩ := Option.bind_eq_some_iff.mp h
    obtain ⟨arguments, harguments, h⟩ := Option.bind_eq_some_iff.mp h
    cases h
    refine unmarked_of_children (bare_of_literal?_eq_none rfl rfl) ?_
    exact List.forall_mem_cons.mpr ⟨hnode _ callee hcallee, hnodes _ arguments harguments⟩
  · obtain ⟨object, hobject, h⟩ := Option.bind_eq_some_iff.mp h
    obtain ⟨json, -, h⟩ := Option.bind_eq_some_iff.mp h
    obtain ⟨path, -, h⟩ := Option.bind_eq_some_iff.mp h
    cases h
    refine unmarked_of_children (bare_of_literal?_eq_none rfl rfl) ?_
    exact List.forall_mem_singleton.mpr (hnode _ object hobject)
  · cases h

mutual

/-- A tree that was read is unmarked, whatever members its document has. -/
theorem unmarked_of_ofJson? :
    ∀ {json : Json} {node : Node}, ofJson? json = some node → node.Unmarked
  | .object members, node, h => by
      rw [ofJson?] at h
      exact unmarked_of_ofParts? (unmarked_parts members) h
  | .null, _, h | .bool _, _, h | .integer _, _, h | .real _, _, h | .string _, _, h
  | .array _, _, h => by
      cases h

/-- Every reading of every member is unmarked. -/
theorem unmarked_parts :
    ∀ (members : List (String × Json)), ∀ part ∈ parts members, part.2.Unmarked
  | [] => List.forall_mem_nil _
  | (key, json) :: rest => by
      rw [parts, List.forall_mem_cons]
      exact ⟨⟨fun _ h => unmarked_of_ofJson? h, fun _ h => unmarked_of_nodesOf? h⟩,
        unmarked_parts rest⟩

/-- Trees that are read from a list are unmarked. -/
theorem unmarked_of_nodesOf? :
    ∀ {json : Json} {nodes : List Node}, nodesOf? json = some nodes → ∀ node ∈ nodes, node.Unmarked
  | .array items, nodes, h => by
      rw [nodesOf?] at h
      exact unmarked_of_ofItems? h
  | .null, _, h | .bool _, _, h | .integer _, _, h | .real _, _, h | .string _, _, h
  | .object _, _, h => by
      cases h

/-- Trees that are read one after the other are unmarked. -/
theorem unmarked_of_ofItems? :
    ∀ {items : List Json} {nodes : List Node}, ofItems? items = some nodes →
      ∀ node ∈ nodes, node.Unmarked
  | [], nodes, h => by
      rw [ofItems?] at h
      cases h
      exact List.forall_mem_nil _
  | item :: rest, nodes, h => by
      rw [ofItems?] at h
      split at h
      · rename_i node nodes hnode hnodes
        cases h
        exact List.forall_mem_cons.mpr ⟨unmarked_of_ofJson? hnode, unmarked_of_ofItems? hnodes⟩
      · cases h

end

end RuleLang.Node
