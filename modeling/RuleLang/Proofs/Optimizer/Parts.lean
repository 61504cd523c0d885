import RuleLang.Proofs.Node.Subtree
import RuleLang.Proofs.Optimizer.Settled

/-!
# The parts of validated trees

Every part of a settled tree is settled in its own right, so that what its kind says can be read off at
any depth.

* `Optimizer.Settled.exists_of_subtree`: a subtree of a settled tree is the tree of a settled one.
* `Optimizer.Settled.of_call`: what a call in a settled tree calls, and on what.
* `Optimizer.Settled.of_member`: a member in a settled tree has been checked against a shape, if one is
  declared for the object.
-/

namespace RuleLang.Optimizer

open Node (Subtree)

variable {V : Type} {o : Optimizer V} {r : Reduced V}

/-- A direct subtree of a settled tree is settled. -/
theorem Settled.exists_of_mem_children (h : Settled o r) {part : Node}
    (hpart : part ∈ r.node.children) : ∃ x, Settled o x ∧ x.node = part := by
  have among (xs : List (Reduced V)) (settled : ∀ x ∈ xs, Settled o x)
      (hmem : part ∈ xs.map Reduced.node) : ∃ x, Settled o x ∧ x.node = part := by
    obtain ⟨x, hx, hnode⟩ := List.mem_map.mp hmem
    exact ⟨x, settled x hx, hnode⟩
  cases h with
  | constant constant =>
      obtain ⟨value, verbatim, rendered, -, rfl⟩ := constant
      exact absurd hpart List.not_mem_nil
  | feature known => exact absurd hpart List.not_mem_nil
  | entry free declared unspliced => exact absurd hpart List.not_mem_nil
  | @unary op x settled unknown => exact ⟨x, settled, (List.mem_singleton.mp hpart).symm⟩
  | @binary op x y left right unknown =>
      exact among [x, y] (by simp [left, right]) hpart
  | logical settled two notLiterals unabsorbed flat => exact among _ settled hpart
  | array settled notLiterals => exact among _ settled hpart
  | @conditional x y z test consequent alternate unselected unknown =>
      exact among [x, y, z] (by simp [test, consequent, alternate]) hpart
  | sequence settled ends unknown => exact among _ settled hpart
  | call known settled compiled described unknown =>
      rcases List.mem_cons.mp hpart with rfl | hpart
      · exact ⟨_, .feature known, rfl⟩
      · exact among _ settled hpart
  | @declaredMember x path shape found settled unknown declared leads unspliced =>
      exact ⟨x, settled, (List.mem_singleton.mp hpart).symm⟩
  | @openMember x path settled unknown undeclared value =>
      exact ⟨x, settled, (List.mem_singleton.mp hpart).symm⟩

/-- Every subtree of a settled tree is settled. -/
theorem Settled.exists_of_subtree (h : Settled o r) {part : Node} (hpart : Subtree part r.node) :
    ∃ x, Settled o x ∧ x.node = part := by
  generalize hnode : r.node = node at hpart
  induction hpart generalizing r with
  | root => exact ⟨r, h, hnode⟩
  | child mem _ ih =>
      subst hnode
      obtain ⟨x, settled, hx⟩ := h.exists_of_mem_children mem
      exact ih settled hx

/-- A settled call calls a feature by its name, which describes the call. -/
theorem Settled.of_call (h : Settled o r) {w : Weight} {callee : Node} {arguments : List Node}
    (hnode : r.node = .call w callee arguments) :
    ∃ (name : String) (feature : StaticFeature V) (xs : List (Reduced V)) (description : Description V),
      callee = .identifier 1 name ∧ o.feature? name = some feature ∧
      arguments = xs.map Reduced.node ∧
      feature.describe (xs.map Reduced.result) = .ok description := by
  cases h with
  | constant constant =>
      obtain ⟨value, verbatim, rendered, -, rfl⟩ := constant
      cases hnode
  | @call name feature xs description known settled compiled described unknown =>
      cases hnode
      exact ⟨name, feature, xs, description, rfl, known, rfl, described⟩
  | _ => cases hnode

/-- The object of a settled member is settled, and the path leads along its declared shape. -/
theorem Settled.of_member (h : Settled o r) {w : Weight} {object : Node} {path : Path}
    (hnode : r.node = .member w object path) :
    ∃ x, Settled o x ∧ x.node = object ∧
      ∀ shape, x.result.shape? = some shape → ∃ found, shape.lookup? path = some found := by
  cases h with
  | constant constant =>
      obtain ⟨value, verbatim, rendered, -, rfl⟩ := constant
      cases hnode
  | @declaredMember x path shape found settled unknown declared leads unspliced =>
      cases hnode
      refine ⟨x, settled, rfl, ?_⟩
      intro other hother
      cases declared.symm.trans hother
      exact ⟨found, leads⟩
  | @openMember x path settled unknown undeclared value =>
      cases hnode
      refine ⟨x, settled, rfl, ?_⟩
      intro shape hshape
      cases undeclared.symm.trans hshape
  | _ => cases hnode

end RuleLang.Optimizer
