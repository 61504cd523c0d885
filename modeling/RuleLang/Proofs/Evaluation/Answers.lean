import RuleLang.Proofs.Evaluation.Outcome
import RuleLang.Proofs.Evaluation.Verdict

/-!
# Computations with one answer

A computation that answers with the same value whatever the world is, and the values of trees whose
subtrees have such values.

* `Computation.Answers`: every outcome is the same answer.
* `Evaluator.Evaluates`: a tree has a value in a scope.
* `Evaluator.answers_chain`: a chain answers with the value of its operands in order of their weights.
* `Evaluator.evaluates_unary` and the like: the value of a tree from the values of its subtrees.
-/

namespace RuleLang

namespace Computation

variable {ω ε α β : Type}

/-- A computation answers with a value whatever the world is. -/
def Answers (c : Computation ω ε α) (a : α) : Prop :=
  c.Ends (· = .ok a)

variable {c : Computation ω ε α} {a : α} {b : β}

/-- A computation that answers does so in every run. -/
theorem Answers.run (h : c.Answers a) (w : ω) : (c.run w).1 = .ok a :=
  Ends.run h w

/-- There is one answer at most. -/
theorem Answers.unique {b : α} (h : c.Answers a) (h' : c.Answers b) (w : ω) : a = b :=
  Except.ok.inj ((h.run w).symm.trans (h'.run w))

/-- An answer that is given at once is the only one. -/
@[simp] theorem answers_pure_iff {b : α} : (pure a : Computation ω ε α).Answers b ↔ a = b := by
  unfold Answers
  rw [ends_pure, Except.ok.injEq]

/-- A changed answer is the change of the answer. -/
theorem Answers.map {f : α → β} (h : c.Answers a) : (map f c).Answers (f a) :=
  ends_mapOutcome.mpr (Ends.mono h fun outcome houtcome => by rw [houtcome]; rfl)

/-- An answer stays when failures are changed. -/
theorem Answers.mapError {f : ε → ε} (h : c.Answers a) : (mapError f c).Answers a :=
  ends_mapOutcome.mpr (Ends.mono h fun outcome houtcome => by rw [houtcome]; rfl)

/-- One computation after another answers with what the second does. -/
theorem Answers.bind {next : α → Computation ω ε β} (h : c.Answers a) (hnext : (next a).Answers b) :
    (bind c next).Answers b := by
  refine ends_bind h ?_ (fun e he => by cases he)
  intro a' ha'
  cases ha'
  exact hnext

/-- Each of a list of computations answers with the value in its place. -/
abbrev AnswerWith (cs : List (Computation ω ε α)) (as : List α) : Prop :=
  List.Forall₂ (fun c a => c.Answers a) cs as

variable {cs : List (Computation ω ε α)} {as : List α}

/-- Computations that each have one answer end with all of them. -/
theorem AnswerWith.endAs (h : AnswerWith cs as) :
    EndAs (as.map fun a outcome => outcome = .ok a) cs := by
  rw [EndAs, List.forall₂_map_left_iff]
  exact h.flip

/-- Where each place allows one answer only, all answers are the only outcome. -/
theorem eq_of_each {outcome : Except ε (List α)}
    (h : Each (as.map fun a outcome => outcome = .ok a) outcome) : outcome = .ok as := by
  cases outcome with
  | ok answers =>
      have heq : List.Forall₂ (fun a b => b = a) as answers := by
        simpa [Each, List.forall₂_map_left_iff] using h
      have hanswers : List.Forall₂ (· = ·) answers as := heq.flip
      rw [List.forall₂_eq_eq_eq] at hanswers
      rw [hanswers]
  | error e =>
      obtain ⟨P, hP, he⟩ := h
      obtain ⟨a, -, rfl⟩ := List.mem_map.mp hP
      cases he

/-- Computations one after another answer with the last of their answers. -/
theorem AnswerWith.inOrder (h : AnswerWith cs as) (last : α) :
    (inOrder last cs).Answers (as.getLast?.getD last) := by
  induction h generalizing last with
  | nil => exact answers_pure_iff.mpr rfl
  | @cons c a cs as head tail ih =>
      rw [List.getLast?_cons]
      exact head.bind (ih a)

end Computation

open RuleLang.Computation

/-- Two computations side by side answer with both answers. -/
theorem Combinators.answers_both {ω ε α : Type} (combinators : Combinators ω ε α)
    {c d : Computation ω ε α} {a b : α} (h : c.Answers a) (hd : d.Answers b) :
    (combinators.both c d).Answers (a, b) := by
  refine (combinators.ends_both h hd).mono ?_
  intro outcome houtcome
  match outcome, houtcome with
  | .ok (a', b'), ⟨ha, hb⟩ =>
      cases ha
      cases hb
      rfl
  | .error e, .inl he => cases he
  | .error e, .inr he => cases he

namespace Evaluator

variable {ω : Type} {e : Evaluator ω}

/-! ### Chains and lists -/

/-- The parts of a list answer with their values in order. -/
theorem answers_gather {cs : List (Computation ω RuleError Value)} {vs : List Value}
    (h : AnswerWith cs vs) : (e.gather cs).Answers vs :=
  (ends_gather h.endAs).mono fun _ houtcome => eq_of_each houtcome

/-- Operands are evaluated up to the first that decides the chain. -/
theorem answers_firstDeciding (op : LogicalOp) {cs : List (Computation ω RuleError Value)}
    {vs : List Value} (h : AnswerWith cs vs) (last : Value) :
    (firstDeciding op last cs).Answers
      ((vs.find? fun v => op.decides v.isTruthy).getD (vs.getLast?.getD last)) := by
  induction h generalizing last with
  | nil => exact answers_pure_iff.mpr rfl
  | @cons c v cs vs head tail ih =>
      rw [firstDeciding, List.getLast?_cons, List.find?_cons]
      refine head.bind ?_
      by_cases hdecides : op.decides v.isTruthy
      · simp only [hdecides, if_true]
        exact answers_pure_iff.mpr rfl
      · simp only [hdecides, if_false, Bool.false_eq_true]
        exact ih v

/-- The order of operands by weight is that of their values with these weights. -/
theorem map_byWeight {α β : Type} (f : α → β) (operands : List (Weight × α)) :
    (byWeight operands).map (fun x => (x.1, f x.2)) =
      byWeight (operands.map fun x => (x.1, f x.2)) :=
  List.map_mergeSort fun _ _ _ _ => rfl

/-- Ordering operands by weight neither drops nor adds any. -/
theorem byWeight_perm {α : Type} (operands : List (Weight × α)) : (byWeight operands).Perm operands :=
  List.mergeSort_perm _ _

/-- A chain answers with the value of its operands in order of their weights. -/
theorem answers_chain (op : LogicalOp)
    (operands : List (Weight × Computation ω RuleError Value × Value))
    (h : ∀ x ∈ operands, x.2.1.Answers x.2.2) :
    (chain op (operands.map fun x => (x.1, x.2.1))).Answers
      (op.combine ((byWeight (operands.map fun x => (x.1, x.2.2))).map Prod.snd)) := by
  rw [← map_byWeight Prod.snd, List.map_map]
  have sorted : AnswerWith ((byWeight operands).map fun x => x.2.1)
      ((byWeight operands).map fun x => x.2.2) := by
    rw [AnswerWith, List.forall₂_map_left_iff, List.forall₂_map_right_iff, List.forall₂_same]
    intro x hx
    exact h x ((byWeight_perm operands).mem_iff.mp hx)
  cases operands with
  | nil => exact answers_pure_iff.mpr (by simp [byWeight])
  | cons x rest =>
      have hnonempty : (byWeight (x :: rest)).map (fun x => x.2.2) ≠ [] := by
        rw [Ne, List.map_eq_nil_iff]
        intro hnil
        simpa [hnil] using (byWeight_perm (x :: rest)).length_eq
      obtain ⟨last, hlast⟩ := Option.ne_none_iff_exists'.mp (mt List.getLast?_eq_none_iff.mp hnonempty)
      have hanswers := answers_firstDeciding op sorted .undefined
      rw [hlast, Option.getD_some, ← LogicalOp.combine_of_getLast? hlast] at hanswers
      change (firstDeciding op .undefined ((byWeight ((x :: rest).map _)).map Prod.snd)).Answers _
      rw [← map_byWeight Prod.fst, List.map_map]
      exact hanswers

/-! ### Trees -/

/-- A tree has a value in a scope, whatever the world is. -/
def Evaluates (e : Evaluator ω) (scope : Scope) (node : Node) (v : Value) : Prop :=
  (e.valueOf scope node).Answers v

-- The equations of the evaluation are derived once, ahead of the lemmas that rewrite with them.
attribute [local simp] valueOf

/-- The computations of several trees are those of each of them. -/
theorem valuesOf_eq_map (e : Evaluator ω) (scope : Scope) (nodes : List Node) :
    e.valuesOf scope nodes = nodes.map (e.valueOf scope) := by
  induction nodes with
  | nil => rw [valuesOf, List.map_nil]
  | cons node rest ih => rw [valuesOf, ih, List.map_cons]

/-- The weighed computations of several trees are those of each of them. -/
theorem weighedValuesOf_eq_map (e : Evaluator ω) (scope : Scope) (nodes : List Node) :
    e.weighedValuesOf scope nodes = nodes.map fun node => (node.weight, e.valueOf scope node) := by
  induction nodes with
  | nil => rw [weighedValuesOf, List.map_nil]
  | cons node rest ih => rw [weighedValuesOf, ih, List.map_cons]

variable {scope : Scope} {w : Weight} {nodes : List Node} {v : Value} {vs : List Value}

/-- Trees with values are computations with these answers. -/
theorem answerWith_valuesOf (h : List.Forall₂ (e.Evaluates scope) nodes vs) :
    AnswerWith (e.valuesOf scope nodes) vs := by
  rw [valuesOf_eq_map, AnswerWith, List.forall₂_map_left_iff]
  exact h

/-- A literal evaluates to what it stores. -/
@[simp] theorem evaluates_literal_iff {value : Value} {verbatim : Bool} :
    e.Evaluates scope (.literal w value verbatim) v ↔ value = v := by
  rw [Evaluates, valueOf, answers_pure_iff]

/-- A name evaluates to the value that the scope binds to it. -/
theorem evaluates_identifier {name : String} (h : e.feature? name = none) :
    e.Evaluates scope (.identifier w name) ((scope.get? name).getD .undefined) := by
  rw [Evaluates, valueOf, named, h]
  exact answers_pure_iff.mpr rfl

/-- An operator in front of an operand evaluates to its value at that of the operand. -/
theorem evaluates_unary {op : UnaryOp} {operand : Node} (h : e.Evaluates scope operand v) :
    e.Evaluates scope (.unary w op operand) (op.apply v) := by
  rw [Evaluates, valueOf]
  exact h.map

/-- An operator evaluates to its value at those of both operands. -/
theorem evaluates_binary {op : BinaryOp} {left right : Node} {a b : Value}
    (hleft : e.Evaluates scope left a) (hright : e.Evaluates scope right b) :
    e.Evaluates scope (.binary w op left right) (op.apply a b) := by
  rw [Evaluates, valueOf]
  exact (e.combinators.answers_both hleft hright).map

/-- An array evaluates to the array of the values of its elements. -/
theorem evaluates_array (h : List.Forall₂ (e.Evaluates scope) nodes vs) :
    e.Evaluates scope (.array w nodes) (.array vs) := by
  rw [Evaluates, valueOf]
  exact (answers_gather (answerWith_valuesOf h)).map

/-- A conditional evaluates to the value of the branch that its test selects. -/
theorem evaluates_conditional {test consequent alternate : Node} {t : Value}
    (htest : e.Evaluates scope test t)
    (hbranch : e.Evaluates scope (if t.isTruthy then consequent else alternate) v) :
    e.Evaluates scope (.conditional w test consequent alternate) v := by
  rw [Evaluates, valueOf]
  refine htest.bind ?_
  split
  · rename_i htruthy
    rwa [if_pos htruthy] at hbranch
  · rename_i htruthy
    rwa [if_neg htruthy] at hbranch

/-- A sequence evaluates to the value of its last expression. -/
theorem evaluates_sequence (h : List.Forall₂ (e.Evaluates scope) nodes vs) :
    e.Evaluates scope (.sequence w nodes) (vs.getLast?.getD .undefined) := by
  rw [Evaluates, valueOf]
  exact (answerWith_valuesOf h).inOrder .undefined

/-- The values of trees in order of the weights of the trees. -/
def valuesByWeight (nodes : List Node) (vs : List Value) : List Value :=
  (byWeight ((nodes.zip vs).map fun x => (x.1.weight, x.2))).map Prod.snd

/-- The values in order of the weights are the same values. -/
theorem valuesByWeight_perm (h : nodes.length = vs.length) : (valuesByWeight nodes vs).Perm vs := by
  refine ((byWeight_perm _).map Prod.snd).trans ?_
  rw [List.map_map]
  exact .of_eq (List.map_snd_zip (by omega))

/-- A chain evaluates to the first value by weight that decides it, or to the last one. -/
theorem evaluates_logical {op : LogicalOp} (h : List.Forall₂ (e.Evaluates scope) nodes vs) :
    e.Evaluates scope (.logical w op nodes) (op.combine (valuesByWeight nodes vs)) := by
  have hoperands : e.weighedValuesOf scope nodes =
      ((nodes.zip vs).map fun x => (x.1.weight, e.valueOf scope x.1, x.2)).map
        fun x => (x.1, x.2.1) := by
    rw [weighedValuesOf_eq_map, List.map_map]
    have hzip : (nodes.zip vs).map Prod.fst = nodes := List.map_fst_zip (Nat.le_of_eq h.length_eq)
    conv_lhs => rw [← hzip, List.map_map]
    rfl
  have hanswers := answers_chain op ((nodes.zip vs).map
      fun x => (x.1.weight, e.valueOf scope x.1, x.2)) fun x hx => by
    obtain ⟨pair, hpair, rfl⟩ := List.mem_map.mp hx
    exact List.forall₂_zip h hpair
  rw [List.map_map] at hanswers
  rw [Evaluates, valueOf, hoperands, List.map_map, valuesByWeight]
  rw [List.map_map] at hanswers
  exact hanswers

/-- A chain is as true as all operands together, in whatever order they are evaluated. -/
theorem isTruthy_combine_valuesByWeight (op : LogicalOp) (h : nodes.length = vs.length) :
    (op.combine (valuesByWeight nodes vs)).isTruthy = op.verdict vs := by
  rw [LogicalOp.isTruthy_combine, LogicalOp.verdict_perm (valuesByWeight_perm h)]

/-- A member access evaluates to the member of the object, where a missing one is undefined. -/
theorem evaluates_member {object : Node} (path : Path) (hlenient : e.config.strictMembers = false)
    (h : e.Evaluates scope object v) :
    e.Evaluates scope (.member w object path) ((v.getPath? path).getD .undefined) := by
  rw [Evaluates, valueOf]
  refine h.bind ?_
  unfold memberOf
  cases v.getPath? path with
  | some found => exact answers_pure_iff.mpr rfl
  | none => simp [hlenient]

/-- A call evaluates to what the feature answers the values of its arguments with. -/
theorem evaluates_call {name : String} {callee : Weight} {feature : Feature ω}
    (hfeature : e.feature? name = some feature) (h : List.Forall₂ (e.Evaluates scope) nodes vs)
    (hcall : (feature.call scope vs).Answers v) :
    e.Evaluates scope (.call w (.identifier callee name) nodes) v := by
  have hcallee : e.callee? (.identifier callee name) = some (name, feature) := by
    simp [callee?, Node.identifier?, hfeature]
  rw [Evaluates, valueOf, hcallee]
  exact (answers_gather (answerWith_valuesOf h)).bind hcall.mapError

end Evaluator

end RuleLang
