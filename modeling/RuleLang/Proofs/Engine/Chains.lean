import Mathlib.Data.List.Find
import RuleLang.Proofs.Engine.Values
import RuleLang.Proofs.Optimizer.Cost

/-!
# Chains that only lose constants

Where no operand of a chain is a chain of the same operator and none is opaque, validation drops operands
and merges none. What is left has the value that the operands have in the order of their weights, whether
constants were dropped or not.

* `Node.IsPlain`: operands that are neither opaque nor merged.
* `Engine.Coherent.evaluates_of_plain`: the value of a chain of plain operands.
-/

namespace RuleLang

/-- An operand of a chain that is no opaque literal and no chain of the same operator. -/
structure Node.IsPlain (op : LogicalOp) (node : Node) : Prop where
  transparent : node.isLiteral → node.constant?.isSome
  separate : ¬ node.isChainOf op

namespace Engine

open Optimizer
open Evaluator (pick)

variable {ω : Type} {engine : Engine ω} {scope : Scope} {op : LogicalOp} {x r : Reduced Value} {v : Value}
  {xs : List (Reduced Value)} {vs : List Value}

/-- Operands with their weights and their values. -/
def weighed (xs : List (Reduced Value)) (vs : List Value) : List (Weight × Reduced Value × Value) :=
  (xs.zip vs).map fun y => (y.1.node.weight, y)

/-- A weighed operand has the weight of its tree and a value of it. -/
theorem of_mem_weighed (h : List.Forall₂ (engine.Valued scope) xs vs)
    {y : Weight × Reduced Value × Value} (mem : y ∈ weighed xs vs) :
    y.1 = y.2.1.node.weight ∧ y.2.1 ∈ xs ∧ engine.Valued scope y.2.1 y.2.2 := by
  obtain ⟨⟨x, v⟩, hzip, rfl⟩ := List.mem_map.mp mem
  exact ⟨rfl, (List.of_mem_zip hzip).1, List.forall₂_zip h hzip⟩

/-- The trees of weighed operands are the trees. -/
theorem map_fst_weighed (h : xs.length = vs.length) : (weighed xs vs).map (fun y => y.2.1) = xs := by
  rw [weighed, List.map_map]
  exact List.map_fst_zip (Nat.le_of_eq h)

/-- The values of weighed operands are the values. -/
theorem map_snd_weighed (h : xs.length = vs.length) : (weighed xs vs).map (fun y => y.2.2) = vs := by
  rw [weighed, List.map_map]
  exact List.map_snd_zip (Nat.le_of_eq h.symm)

/-- Weighed operands come to what their trees and values come to. -/
theorem combine_eq_pick {operands : List (Weight × Reduced Value × Value)}
    (weights : ∀ y ∈ operands, y.1 = y.2.1.node.weight) :
    op.combine (Evaluator.valuesByWeight (operands.map fun y => y.2.1.node)
      (operands.map fun y => y.2.2)) = pick op Prod.snd operands := by
  have hpairs : (operands.map fun y => (y.2.1.node.weight, y.2.2)) =
      operands.map fun y => (y.1, y.2.2) :=
    List.map_congr_left fun y hy => by rw [weights y hy]
  unfold Evaluator.valuesByWeight
  rw [List.zip_map', List.map_map]
  change op.combine ((Evaluator.byWeight (operands.map fun y => (y.2.1.node.weight, y.2.2))).map _) = _
  rw [hpairs]
  exact Evaluator.pick_map id Prod.snd operands

/-- Some of the operands of a chain evaluate to what they come to by weight. -/
theorem evaluates_operands {operands : List (Weight × Reduced Value × Value)} {w : Weight}
    (weights : ∀ y ∈ operands, y.1 = y.2.1.node.weight)
    (valued : ∀ y ∈ operands, engine.Valued scope y.2.1 y.2.2) :
    engine.evaluator.Evaluates scope (.logical w op (operands.map fun y => y.2.1.node))
      (pick op Prod.snd operands) := by
  rw [← combine_eq_pick weights]
  refine Evaluator.evaluates_logical ?_
  rw [List.forall₂_map_left_iff, List.forall₂_map_right_iff, List.forall₂_same]
  exact fun y hy => (valued y hy).evaluates

/-- A literal among plain operands is a constant. -/
theorem Valued.constant?_eq (h : engine.Valued scope x v) (plain : x.node.IsPlain op)
    (hliteral : x.node.isLiteral) : x.node.constant? = some v := by
  obtain ⟨value, hvalue⟩ := Option.isSome_iff_exists.mp (plain.transparent hliteral)
  rw [hvalue, h.eq_of_constant? hvalue]

/-- Of plain operands, those that validation may use to decide the chain weigh nothing and decide it. -/
theorem Valued.isDecisive_eq (h : engine.Valued scope x v) (plain : x.node.IsPlain op)
    (absorption : engine.optimizer.config.absorption) :
    engine.optimizer.isDecisive op x =
      decide (x.node.weight.toNat = 0 ∧ op.decides v.isTruthy) := by
  simp only [isDecisive, absorption, Bool.true_and, h.settled.weight_eq_zero_iff]
  by_cases hliteral : x.node.isLiteral
  · rw [h.constant?_eq plain hliteral, Option.any_some]
    simp [hliteral]
  · have hnone : x.node.constant? = none :=
      Option.not_isSome_iff_eq_none.mp fun hsome => hliteral (Node.isLiteral_of_constant? hsome)
    rw [hnone, Option.any_none]
    simp [hliteral]

/-- The first constant that decides a chain gives it the value that its operands come to by weight. -/
theorem evaluates_of_decisive (hxs : List.Forall₂ (engine.Valued scope) xs vs)
    (plain : ∀ x ∈ xs, x.node.IsPlain op) (h : xs.find? (engine.optimizer.isDecisive op) = some r) :
    engine.evaluator.Evaluates scope r.node (pick op Prod.snd (weighed xs vs)) := by
  have decisive := List.find?_some h
  rw [isDecisive, Bool.and_eq_true] at decisive
  rw [← map_fst_weighed hxs.length_eq, List.find?_map, Option.map_eq_some_iff] at h
  obtain ⟨y, hfind, rfl⟩ := h
  have hweightless : (weighed xs vs).find? (fun y => y.1.toNat = 0 ∧ op.decides y.2.2.isTruthy) =
      some y := by
    rw [← hfind]
    refine List.find?_congr fun z hz => ?_
    obtain ⟨hweight, hmem, hvalued⟩ := of_mem_weighed hxs hz
    rw [Function.comp_apply, hvalued.isDecisive_eq (plain _ hmem) decisive.1, hweight]
  rw [Evaluator.pick_of_weightless hweightless]
  exact (of_mem_weighed hxs (List.mem_of_find?_eq_some hfind)).2.2.evaluates

/-- Absorption leaves the value that operands come to by weight as it is. -/
theorem pick_remaining (hxs : List.Forall₂ (engine.Valued scope) xs vs)
    (undecided : ∀ x ∈ xs, ¬ engine.optimizer.isDecisive op x) (mem : x ∈ xs)
    (heavy : ¬ x.node.isLiteral) :
    pick op Prod.snd ((weighed xs vs).filter fun y => !engine.optimizer.isAbsorbed y.2.1) =
      pick op Prod.snd (weighed xs vs) := by
  rw [← map_fst_weighed hxs.length_eq, List.mem_map] at mem
  obtain ⟨y, hy, rfl⟩ := mem
  obtain ⟨hweight, -, hvalued⟩ := of_mem_weighed hxs hy
  rw [← hvalued.settled.weight_eq_zero_iff, ← hweight] at heavy
  refine Evaluator.pick_filter_of_neutral (fun z hz hleft => ?_) hy (Nat.pos_of_ne_zero heavy)
  obtain ⟨hweight, hmem, hvalued⟩ := of_mem_weighed hxs hz
  have absorbed : engine.optimizer.isAbsorbed z.2.1 := by simpa using hleft
  refine ⟨?_, hvalued.isTruthy_of_isAbsorbed absorbed (undecided _ hmem)⟩
  rw [hweight, hvalued.settled.weight_eq_zero_iff]
  rw [isAbsorbed, Bool.and_eq_true] at absorbed
  exact Node.isLiteral_of_constant? absorbed.2

/-- What absorption leaves of weighed operands. -/
theorem map_remaining (engine : Engine ω) (h : xs.length = vs.length) :
    engine.optimizer.remaining xs =
      ((weighed xs vs).filter fun y => !engine.optimizer.isAbsorbed y.2.1).map fun y => y.2.1 := by
  conv_lhs => rw [← map_fst_weighed h, remaining, List.filter_map]
  rfl

/-- Plain operands are not merged. -/
theorem flatMap_flatten_of_plain (engine : Engine ω) (plain : ∀ x ∈ xs, x.node.IsPlain op) :
    (xs.flatMap fun x => engine.optimizer.flatten op x.node) = xs.map Reduced.node := by
  rw [List.map_eq_flatMap]
  exact List.flatMap_congr fun x hx => flatten_of_not fun h => (plain x hx).separate h.2

/-- A chain with an operand that is no literal has the value that its plain operands come to. -/
theorem evaluates_of_mixed (hxs : List.Forall₂ (engine.Valued scope) xs vs)
    (plain : ∀ x ∈ xs, x.node.IsPlain op) (mem : x ∈ xs) (heavy : ¬ x.node.isLiteral)
    (h : engine.optimizer.logical op xs = .ok r) :
    engine.evaluator.Evaluates scope r.node (pick op Prod.snd (weighed xs vs)) := by
  have notConstant : ¬ x.node.constant?.isSome := fun h => heavy (Node.isLiteral_of_constant? h)
  have hkept := map_remaining engine hxs.length_eq
  have stays : x ∈ engine.optimizer.remaining xs :=
    mem_remaining.mpr ⟨mem, fun absorbed => notConstant (Bool.and_eq_true _ _ ▸ absorbed).2⟩
  unfold logical at h
  split at h
  · rename_i hconstant
    exact absurd (List.all_eq_true.mp hconstant x mem) notConstant
  split at h
  · rename_i deciding hdeciding
    cases h
    exact evaluates_of_decisive hxs plain hdeciding
  rename_i hundecided
  rw [← pick_remaining hxs (List.find?_eq_none.mp hundecided) mem heavy]
  split at h
  · rename_i hnil
    have hstays : x ∈ [] := hnil ▸ stays
    exact absurd hstays List.not_mem_nil
  · rename_i single hsingle
    cases h
    obtain ⟨y, hy, rfl⟩ := List.map_eq_singleton_iff.mp (hkept.symm.trans hsingle)
    have hmem : y ∈ weighed xs vs := List.mem_of_mem_filter (hy ▸ List.mem_singleton_self y)
    rw [hy, Evaluator.pick_singleton]
    exact (of_mem_weighed hxs hmem).2.2.evaluates
  split at h
  · rename_i hliterals
    exact absurd (List.all_eq_true.mp hliterals x stays) heavy
  · cases h
    have hplain : ∀ x ∈ engine.optimizer.remaining xs, x.node.IsPlain op :=
      fun x hx => plain x (mem_remaining.mp hx).1
    have hmerged := flatMap_flatten_of_plain engine hplain
    rw [hkept, List.map_map] at hmerged
    unfold remaining at hkept
    rw [hkept, hmerged]
    exact evaluates_operands (fun y hy => (of_mem_weighed hxs (List.mem_of_mem_filter hy)).1)
      fun y hy => (of_mem_weighed hxs (List.mem_of_mem_filter hy)).2.2

/-- A chain of plain operands has the value of the operands in the order of their weights. -/
theorem Coherent.evaluates_of_plain (coherent : engine.Coherent)
    (hxs : List.Forall₂ (engine.Valued scope) xs vs) (plain : ∀ x ∈ xs, x.node.IsPlain op)
    (h : engine.optimizer.logical op xs = .ok r) :
    engine.evaluator.Evaluates scope r.node
      (op.combine (Evaluator.valuesByWeight (xs.map Reduced.node) vs)) := by
  have hvalue : op.combine (Evaluator.valuesByWeight (xs.map Reduced.node) vs) =
      pick op Prod.snd (weighed xs vs) := by
    rw [← combine_eq_pick fun y hy => (of_mem_weighed hxs hy).1, map_snd_weighed hxs.length_eq]
    conv_lhs => rw [← map_fst_weighed hxs.length_eq, List.map_map]
    rfl
  rw [hvalue]
  by_cases hliteral : ∀ x ∈ xs, x.node.isLiteral
  · -- the operands fold, in the order in which they stand
    have constant : xs.all fun x => x.node.constant?.isSome :=
      List.all_eq_true.mpr fun x hx => (plain x hx).transparent (hliteral x hx)
    have hlight : Evaluator.Ascending (weighed xs vs) :=
      List.pairwise_of_forall_mem_list fun y hy z hz => by
        obtain ⟨hweight, hmem, hvalued⟩ := of_mem_weighed hxs hy
        rw [hweight, hvalued.settled.weight_eq_zero_iff.mpr (hliteral _ hmem)]
        exact Nat.zero_le _
    rw [logical, if_pos constant, coherent.constants_eq hxs hliteral, coherent.domain] at h
    rw [pick, Evaluator.byWeight_eq_self hlight, map_snd_weighed hxs.length_eq]
    exact (coherent.valued_of_fold h).evaluates
  · obtain ⟨x, hx, heavy⟩ : ∃ x ∈ xs, ¬ x.node.isLiteral := by
      simpa only [not_forall, exists_prop] using hliteral
    exact evaluates_of_mixed hxs plain hx heavy h

end Engine

end RuleLang
