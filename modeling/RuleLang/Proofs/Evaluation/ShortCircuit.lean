import Mathlib.Data.List.Perm.Basic
import RuleLang.Proofs.Evaluation.Order
import RuleLang.Proofs.Evaluation.Strictness
import RuleLang.Sample

/-!
# Chains stop at the operand that decides them

A chain evaluates its operands from the lightest to the heaviest and stops at the first that decides it.
Folding a chain looks at the values of all operands at once. Both come to the same value.

* `Node.StableOrder`: the operands by weight, equally heavy ones as they stand.
* `Evaluator.valueOf_logical`: a chain with operands takes them in this order.
* `Evaluator.firstDeciding_eq_inOrder`: it takes those up to the first deciding one, and no others.
* `Evaluator.logical_short_circuits`: the value and the truth value of a chain whose operands have values.
-/

namespace RuleLang

/-! ### The order of evaluation -/

namespace Node

/-- The operands in ascending order of their weights, equally heavy ones in the order in which they
stand. -/
structure StableOrder (operands ordered : List Node) : Prop where
  ascending : ordered.Pairwise fun a b => a.weight.toNat ≤ b.weight.toNat
  stable : ∀ weight : Nat, ordered.filter (fun node => node.weight.toNat = weight) =
    operands.filter fun node => node.weight.toNat = weight

/-- The operands put in that order. -/
def inWeightOrder (operands : List Node) : List Node :=
  operands.mergeSort fun a b => a.weight.toNat ≤ b.weight.toNat

/-- Ordering operands by weight neither drops nor adds any. -/
theorem inWeightOrder_perm (operands : List Node) : (inWeightOrder operands).Perm operands :=
  List.mergeSort_perm _ _

end Node

open RuleLang.Computation

namespace Evaluator

variable {ω : Type} {e : Evaluator ω} {scope : Scope} {w : Weight} {op : LogicalOp}
  {operands : List Node} {us : List Value}

/-- Whatever comes with the operands is put in the order of the operands. -/
theorem byWeight_map_weight {α : Type} (f : Node → α) (operands : List Node) :
    byWeight (operands.map fun node => (node.weight, f node)) =
      (Node.inWeightOrder operands).map fun node => (node.weight, f node) := by
  unfold byWeight Node.inWeightOrder
  rw [List.map_mergeSort]
  exact fun _ _ _ _ => rfl

/-- Ordered by weight, operands of the same weight keep their order. -/
theorem stableOrder_inWeightOrder (operands : List Node) :
    Node.StableOrder operands (Node.inWeightOrder operands) where
  ascending :=
    (List.pairwise_mergeSort (key_trans fun node : Node => node.weight.toNat)
      (key_total fun node : Node => node.weight.toNat) operands).imp of_decide_eq_true
  stable weight := by
    have hstable := ofWeight_byWeight weight (operands.map fun node => (node.weight, node))
    rw [byWeight_map_weight (fun node => node), ofWeight, ofWeight, List.filter_map, List.filter_map]
      at hstable
    have hnodes := congrArg (List.map Prod.snd) hstable
    simpa [Function.comp_def] using hnodes

/-- A chain with operands takes them in the order of their weights. -/
theorem valueOf_logical (hne : operands ≠ []) : e.valueOf scope (.logical w op operands) =
    firstDeciding op .undefined ((Node.inWeightOrder operands).map (e.valueOf scope)) := by
  have hchain : e.valueOf scope (.logical w op operands) = firstDeciding op .undefined
      ((byWeight (operands.map fun node => (node.weight, e.valueOf scope node))).map Prod.snd) := by
    rw [valueOf, weighedValuesOf_eq_map]
    cases operands with
    | nil => exact absurd rfl hne
    | cons first rest => rfl
  rw [hchain, byWeight_map_weight, List.map_map]
  rfl

/-- Up to the first operand that decides the chain, one after the other: the operands behind it are not
part of the computation. -/
theorem firstDeciding_eq_inOrder {cs : List (Computation ω RuleError Value)} {vs : List Value}
    (h : AnswerWith cs vs) (last : Value) : firstDeciding op last cs =
      inOrder last (cs.take (vs.findIdx (fun v => op.decides v.isTruthy) + 1)) := by
  induction h generalizing last with
  | nil => rfl
  | @cons c v cs vs head tail ih =>
      rw [firstDeciding, List.take_succ_cons, inOrder, List.findIdx_cons]
      refine bind_congr_of_answersIn (Ends.mono head fun outcome houtcome a ha => ?_)
      obtain rfl : v = a := Except.ok.inj (houtcome.symm.trans ha)
      cases hdecides : op.decides v.isTruthy with
      | true => simp [inOrder]
      | false => simpa using ih v

/-! ### Other weights, another order -/

/-- The weight of a tree has no part in its value. -/
theorem valueOf_withWeight (w : Weight) (node : Node) :
    e.valueOf scope (node.withWeight w) = e.valueOf scope node := by
  cases node <;> rw [Node.withWeight, valueOf, valueOf]

/-- Operands that are the same but for their weights and their order have the same values in another
order. -/
theorem exists_values_of_perm {others : List Node} (h : List.Forall₂ (e.Evaluates scope) operands us)
    (same : (others.map (Node.withWeight 0)).Perm (operands.map (Node.withWeight 0))) :
    ∃ vs, List.Forall₂ (e.Evaluates scope) others vs ∧ vs.Perm us := by
  have evaluates_iff (node : Node) (v : Value) :
      e.Evaluates scope (node.withWeight 0) v ↔ e.Evaluates scope node v := by
    rw [Evaluates, Evaluates, valueOf_withWeight]
  have herased : List.Forall₂ (e.Evaluates scope) (operands.map (Node.withWeight 0)) us :=
    List.forall₂_map_left_iff.mpr (h.imp fun node v => (evaluates_iff node v).mpr)
  obtain ⟨vs, hvs, hperm⟩ := List.perm_comp_forall₂ same herased
  exact ⟨vs, (List.forall₂_map_left_iff.mp hvs).imp fun node v => (evaluates_iff node v).mp, hperm⟩

/-! ### The value of a chain -/

/-- Where each operand of a chain has a value, the chain evaluates its operands in ascending order of
their weights up to the first that decides it, and comes to what their values in this order fold to. It is
as true as the operands together, so that chains of the same operands with other weights and in another
order are as true as it is. -/
theorem logical_short_circuits (w : Weight) (op : LogicalOp) (hne : operands ≠ [])
    (h : List.Forall₂ (e.Evaluates scope) operands us) :
    ∃ ordered vs, Node.StableOrder operands ordered ∧ List.Forall₂ (e.Evaluates scope) ordered vs ∧
      vs.Perm us ∧ e.Evaluates scope (.logical w op operands) (op.combine vs) ∧
      e.valueOf scope (.logical w op operands) = .inOrder .undefined
        ((ordered.take (vs.findIdx (fun v => op.decides v.isTruthy) + 1)).map (e.valueOf scope)) ∧
      (op.combine vs).isTruthy = op.verdict us ∧
      ∀ (w' : Weight) (others : List Node),
        (others.map (Node.withWeight 0)).Perm (operands.map (Node.withWeight 0)) →
          ∃ v, e.Evaluates scope (.logical w' op others) v ∧ v.isTruthy = op.verdict us := by
  obtain ⟨vs, hvs, hperm⟩ :=
    exists_values_of_perm h ((Node.inWeightOrder_perm operands).map (Node.withWeight 0))
  have hanswers : AnswerWith ((Node.inWeightOrder operands).map (e.valueOf scope)) vs :=
    List.forall₂_map_left_iff.mpr hvs
  have hvalue : e.Evaluates scope (.logical w op operands) (op.combine vs) := by
    have hvsne : vs ≠ [] := by
      intro hnil
      have hlength := h.length_eq
      rw [← hperm.length_eq, hnil, List.length_nil, List.length_eq_zero_iff] at hlength
      exact hne hlength
    rw [Evaluates, valueOf_logical hne, LogicalOp.combine_of_getLast? (List.getLast?_eq_some_getLast hvsne)]
    have hfirst := answers_firstDeciding op hanswers .undefined
    rwa [List.getLast?_eq_some_getLast hvsne, Option.getD_some] at hfirst
  refine ⟨Node.inWeightOrder operands, vs, stableOrder_inWeightOrder operands, hvs, hperm, hvalue, ?_,
    ?_, ?_⟩
  · rw [valueOf_logical hne, firstDeciding_eq_inOrder hanswers, List.map_take]
  · rw [LogicalOp.isTruthy_combine, LogicalOp.verdict_perm hperm]
  · intro w' others same
    obtain ⟨ws, hws, hwsperm⟩ := exists_values_of_perm h same
    refine ⟨op.combine (valuesByWeight others ws), evaluates_logical hws, ?_⟩
    rw [isTruthy_combine_valuesByWeight op hws.length_eq, LogicalOp.verdict_perm hwsperm]

end Evaluator

namespace Sample

/-- A feature that counts its calls in the world and always answers with an amount. -/
def countedBalance : Feature Nat where
  describe _ := .ok ⟨1, .scalar "number", none⟩
  argumentCompiler? := none
  call _ _ := .act (· + 1) fun _ => .pure (.number (Number.ofInt 500))

/-- An evaluator with nothing but that feature. -/
def balanceEvaluator : Evaluator Nat :=
  ⟨[("balance", countedBalance)], .default, .rounds⟩

/-- Operands of several kinds: an expensive call, two texts of the same weight, and a list. -/
def mixedOperands : List Node :=
  [(callOf "balance" []).withWeight (.ofNat 9), (.literal 1 (.string "") false),
    (.literal 1 (.string "EUR") false), (.literal (.ofNat 4) (.array []) false)]

/-- The second text decides the chain, and it would decide it in the reverse order too. -/
theorem logical_short_circuits_mixedOperands :
    ∃ ordered vs, Node.StableOrder mixedOperands ordered ∧
      List.Forall₂ (balanceEvaluator.Evaluates scope) ordered vs ∧
      balanceEvaluator.Evaluates scope (.logical 0 .or mixedOperands) (LogicalOp.or.combine vs) ∧
      (LogicalOp.or.combine vs).isTruthy = true ∧
      ∃ v, balanceEvaluator.Evaluates scope (.logical 0 .or mixedOperands.reverse) v ∧
        v.isTruthy = true := by
  have hcall : balanceEvaluator.Evaluates scope ((callOf "balance" []).withWeight (.ofNat 9))
      (.number (Number.ofInt 500)) :=
    Evaluator.evaluates_call rfl .nil fun _ => rfl
  have hvalues : List.Forall₂ (balanceEvaluator.Evaluates scope) mixedOperands
      [.number (Number.ofInt 500), .string "", .string "EUR", .array []] :=
    .cons hcall (.cons (Evaluator.evaluates_literal_iff.mpr rfl)
      (.cons (Evaluator.evaluates_literal_iff.mpr rfl)
        (.cons (Evaluator.evaluates_literal_iff.mpr rfl) .nil)))
  obtain ⟨ordered, vs, horder, hvs, -, hvalue, -, htruthy, hothers⟩ :=
    Evaluator.logical_short_circuits 0 .or (List.cons_ne_nil _ _) hvalues
  have hverdict : LogicalOp.or.verdict
      [.number (Number.ofInt 500), .string "", .string "EUR", .array []] = true := by decide
  obtain ⟨v, hv, hvtruthy⟩ :=
    hothers 0 mixedOperands.reverse (mixedOperands.reverse_perm.map (Node.withWeight 0))
  exact ⟨ordered, vs, horder, hvs, hvalue, htruthy.trans hverdict, v, hv, hvtruthy.trans hverdict⟩

end Sample

end RuleLang
