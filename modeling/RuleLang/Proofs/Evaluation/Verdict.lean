import RuleLang.Value.Operation

/-!
# The truth value of a chain

* `LogicalOp.verdict`: whether all operands, or one of them, are true.
* `LogicalOp.isTruthy_combine`: it is the truth value of the chain's value.
* `LogicalOp.verdict_perm`: it does not depend on the order of the operands.
-/

namespace RuleLang.LogicalOp

variable {op : LogicalOp} {v : Value} {vs ws : List Value}

/-- The truth value of a chain, from those of its operands. -/
def verdict (op : LogicalOp) (vs : List Value) : Bool :=
  match op with
  | .and => vs.all Value.isTruthy
  | .or => vs.any Value.isTruthy

/-- A value decides a chain if its truth value is not the neutral one. -/
theorem decides_iff : op.decides v.isTruthy ↔ v.isTruthy = !op.neutral := by
  cases op <;> cases v.isTruthy <;> decide

/-- A chain of one operand is as true as the operand. -/
@[simp] theorem verdict_singleton : op.verdict [v] = v.isTruthy := by
  cases op <;> simp [verdict]

/-- The value of a chain whose last operand is `last`. -/
theorem combine_of_getLast? {last : Value} (h : vs.getLast? = some last) :
    op.combine vs = (vs.find? fun v => op.decides v.isTruthy).getD last := by
  unfold combine
  rw [h]
  split
  · rename_i v hfind
    rw [hfind, Option.getD_some]
  · rename_i hfind
    rw [hfind, Option.getD_none, Option.getD_some]

/-- The value of a chain with operands is that of one of them. -/
theorem combine_mem (hne : vs ≠ []) : op.combine vs ∈ vs := by
  rw [combine_of_getLast? (List.getLast?_eq_some_getLast hne)]
  cases hfind : vs.find? fun v => op.decides v.isTruthy with
  | some v => exact List.mem_of_find?_eq_some hfind
  | none => exact List.getLast_mem hne

/-- The value of a chain is one of the values or the neutral truth value. -/
theorem combine_mem_or_eq_neutral : op.combine vs ∈ vs ∨ op.combine vs = .bool op.neutral := by
  by_cases hne : vs = []
  · rw [hne]
    exact .inr rfl
  · exact .inl (combine_mem hne)

/-- An operand that decides a chain gives it its truth value. -/
theorem verdict_of_decides (hv : v ∈ vs) (h : op.decides v.isTruthy) : op.verdict vs = v.isTruthy := by
  have htruthy := decides_iff.mp h
  rw [htruthy]
  cases op with
  | and => exact List.all_eq_false.mpr ⟨v, hv, by simpa [neutral] using htruthy⟩
  | or => exact List.any_eq_true.mpr ⟨v, hv, by simpa [neutral] using htruthy⟩

/-- A chain without a deciding operand has its neutral truth value. -/
theorem verdict_of_undecided (h : ∀ v ∈ vs, ¬ op.decides v.isTruthy) : op.verdict vs = op.neutral := by
  cases op with
  | and => exact List.all_eq_true.mpr fun v hv => by simpa [decides, neutral] using h v hv
  | or => exact List.any_eq_false.mpr fun v hv => by simpa [decides, neutral] using h v hv

/-- The value of a chain has the truth value of the chain. -/
theorem isTruthy_combine : (op.combine vs).isTruthy = op.verdict vs := by
  unfold combine
  split
  · rename_i v hfind
    have decides : op.decides v.isTruthy :=
      List.find?_some (p := fun v : Value => op.decides v.isTruthy) hfind
    exact (verdict_of_decides (List.mem_of_find?_eq_some hfind) decides).symm
  · rename_i hfind
    have undecided : ∀ v ∈ vs, ¬ op.decides v.isTruthy := List.find?_eq_none.mp hfind
    rw [verdict_of_undecided undecided]
    cases hlast : vs.getLast? with
    | none => rfl
    | some v =>
        have hv := undecided v (List.mem_of_getLast? hlast)
        rw [decides_iff] at hv
        simpa using hv

/-- A chain depends on the operands after the first by their own truth value. -/
theorem verdict_cons_congr (h : op.verdict vs = op.verdict ws) :
    op.verdict (v :: vs) = op.verdict (v :: ws) := by
  cases op <;> simpa [verdict] using congrArg _ h

/-- A neutral operand leaves the truth value of a chain as it is. -/
theorem verdict_cons_of_neutral (h : v.isTruthy = op.neutral) :
    op.verdict (v :: vs) = op.verdict vs := by
  cases op <;> simp_all [verdict, neutral]

/-- Operands that are as true together as one operand may stand in its place. -/
theorem verdict_append_of_eq {us : List Value} (h : op.verdict us = v.isTruthy)
    (hrest : op.verdict ws = op.verdict vs) : op.verdict (us ++ ws) = op.verdict (v :: vs) := by
  cases op <;> simp_all [verdict]

/-- The truth value of a chain does not depend on the order of its operands. -/
theorem verdict_perm (h : vs.Perm ws) : op.verdict vs = op.verdict ws := by
  cases op with
  | and => exact h.all_eq
  | or => exact h.any_eq

end RuleLang.LogicalOp
