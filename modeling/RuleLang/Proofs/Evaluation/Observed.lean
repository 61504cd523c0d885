import RuleLang.Proofs.Evaluation.Answers
import RuleLang.Proofs.Evaluation.Failure
import RuleLang.Proofs.Evaluation.Trace
import RuleLang.Proofs.Evaluation.Order

/-!
# Every evaluation keeps to its traces

Step by step, the evaluation of a tree with its log does what the evaluation without it does, and what it
has written is always one of the possible logs. This is proved by induction on the tree: what the
evaluations of the children write is put together as the node puts the evaluations together.

* `Node.byWeight`: the operands of a chain in the order of their evaluation.
* `Evaluator.writes_observed`: an evaluation writes such a log.
* `Evaluator.watches_observed`: an evaluation with its log is the evaluation.
-/

namespace RuleLang

open RuleLang.Computation

/-! ### The order of a chain -/

/-- The positions of the members of a list ascend. -/
theorem pairwise_zipIdx_lt {α : Type} (xs : List α) : xs.zipIdx.Pairwise fun x y => x.2 < y.2 := by
  have hrange : (xs.zipIdx.map Prod.snd).Pairwise (· < ·) := by
    rw [List.zipIdx_map_snd]
    exact List.pairwise_lt_range'
  exact List.pairwise_map.mp hrange

/-- The operands of a chain by weight, with their positions. -/
def Node.byWeight (operands : List Node) : List (Node × Nat) :=
  (Evaluator.byWeight (operands.zipIdx.map fun x => (x.1.weight, x))).map Prod.snd

/-- Ordering operands by weight neither drops nor adds any, and each keeps its place. -/
theorem Node.byWeight_perm (operands : List Node) :
    (Node.byWeight operands).Perm operands.zipIdx := by
  refine ((Evaluator.byWeight_perm _).map Prod.snd).trans ?_
  rw [List.map_map]
  exact .of_eq (List.map_id _)

/-- The operands by weight come one before the other. -/
theorem Node.pairwise_byWeight (w : Weight) (op : LogicalOp) (operands : List Node) :
    (Node.byWeight operands).Pairwise fun x y => (Node.logical w op operands).Precedes x.2 y.2 := by
  have ascending : (operands.zipIdx.map fun x => (x.1.weight, x)).Pairwise
      fun x y => x.2.2 < y.2.2 :=
    List.pairwise_map.mpr (pairwise_zipIdx_lt operands)
  have ordered := pairwise_mergeSort_stable (fun x => x.1.toNat) ascending
  have perm := Evaluator.byWeight_perm (operands.zipIdx.map fun x => (x.1.weight, x))
  rw [Node.byWeight, List.pairwise_map]
  apply ordered.imp_of_mem
  intro x y hx hy hxy
  obtain ⟨a, ha, rfl⟩ := List.mem_map.mp (perm.subset hx)
  obtain ⟨b, hb, rfl⟩ := List.mem_map.mp (perm.subset hy)
  exact ⟨a.1, b.1, List.mem_zipIdx_iff_getElem?.mp ha, List.mem_zipIdx_iff_getElem?.mp hb, hxy⟩

/-! ### One construct after another -/

variable {ω : Type} {site : Site} {node : Node}

/-- A node that is no call writes down its answer after its work. -/
theorem writes_of_work {c : Computation (ω × List Event) RuleError Value}
    (noCall : ∀ w callee arguments, node ≠ .call w callee arguments) (h : Writes (Work site node) c) :
    Writes (Trace site node) (.recording (.answered site) c) := by
  apply h.recording
  · intro es work
    exact work.underway
  · intro es v work
    exact ⟨work.underway, work.closing (.plain noCall)⟩

/-- What is done for every member of a list is done for every member with its position. -/
theorem map_eq_map_zipIdx {α β : Type} (f : α → β) (xs : List α) (start : Nat) :
    xs.map f = (xs.zipIdx start).map fun x => f x.1 := by
  conv_lhs => rw [← List.zipIdx_map_fst start xs, List.map_map]
  rfl

namespace Evaluator

variable {E : Type} {e : Evaluator ω} {scope : Scope}

/-! ### Over worlds with a log -/

section Logged

variable {logged : Evaluator (ω × List E)} {Ts : List (Logs E Value)} {name : String}
  {cs : List (Computation (ω × List E) RuleError Value)} {ds : List (Computation ω RuleError Value)}

/-- Looking up a name writes nothing. -/
theorem writes_named {T : Logs E Value} (h : ∀ v?, T [] v?) : Writes T (logged.named scope name) := by
  unfold named
  cases logged.feature? name with
  | none => exact .finished (h _)
  | some feature => exact .finished (h _)

/-- Looking up a member writes nothing. -/
theorem writes_memberOf {T : Logs E Value} {object : Node} {path : Path} {v : Value}
    (h : ∀ v?, T [] v?) : Writes T (logged.memberOf object path v) := by
  unfold memberOf
  cases v.getPath? path with
  | some found => exact .finished (h _)
  | none =>
      dsimp only
      split
      · exact .finished (h _)
      · exact .finished (h _)

/-- Looking up a member is the same with a log. -/
theorem watches_memberOf (config : logged.config = e.config) {object : Node} {path : Path} {v : Value} :
    Computation.Watches (logged.memberOf object path v) (e.memberOf object path v) := by
  unfold memberOf
  rw [config]
  cases v.getPath? path with
  | some found => exact .finished _
  | none =>
      dsimp only
      split
      · exact .finished _
      · exact .finished _

/-- Parts write what each of them does, merged, as many of them as are under way. -/
theorem writes_gather (each : List.Forall₂ Writes Ts cs) : Writes (Jointly Ts) (logged.gather cs) :=
  (logged.sideBySide_gather cs).writes_jointly each

/-- Parts do what they do without a log. -/
theorem watches_gather (config : logged.config = e.config)
    (watches : logged.combinators.Watches e.combinators)
    (each : List.Forall₂ Computation.Watches cs ds) :
    Computation.Watches (logged.gather cs) (e.gather ds) := by
  unfold gather
  rw [config]
  cases e.config.maxFanout with
  | none => exact watches.all each
  | some limit => exact watches.buffered (max limit 1) each

/-- The operands of a chain write what each of them does, one after another up to the first that decides
it. -/
theorem writes_firstDeciding (op : LogicalOp) (each : List.Forall₂ Writes Ts cs) (last : Value) :
    Writes (InTurn (fun v => op.decides v.isTruthy) Ts last) (firstDeciding op last cs) := by
  induction each generalizing last with
  | nil => exact .finished .nil
  | cons head tail ih =>
      refine head.bind (fun es h => .underway h) fun es v hfirst => ?_
      by_cases hdecides : op.decides v.isTruthy
      · rw [if_pos hdecides]
        exact .finished (by simpa using .stop hfirst hdecides)
      · rw [if_neg hdecides]
        exact (ih v).mono fun es' v? h' => .step hfirst hdecides h'

/-- The operands of a chain do what they do without a log. -/
theorem watches_firstDeciding (op : LogicalOp) (each : List.Forall₂ Computation.Watches cs ds)
    (last : Value) : Computation.Watches (firstDeciding op last cs) (firstDeciding op last ds) := by
  induction each generalizing last with
  | nil => exact .finished _
  | cons head tail ih =>
      apply head.bind
      intro v
      by_cases hdecides : op.decides v.isTruthy
      · rw [if_pos hdecides, if_pos hdecides]
        exact .finished _
      · rw [if_neg hdecides, if_neg hdecides]
        exact ih v

/-- A chain that has operands evaluates them by weight. -/
theorem chain_eq_firstDeciding (op : LogicalOp) {operands : List Node} (hne : operands ≠ [])
    (f : Node × Nat → Computation ω RuleError Value) :
    chain op (operands.zipIdx.map fun x => (x.1.weight, f x)) =
      firstDeciding op .undefined ((Node.byWeight operands).map f) := by
  have hsorted := map_byWeight f (operands.zipIdx.map fun x => (x.1.weight, x))
  rw [List.map_map] at hsorted
  have hchain : (byWeight (operands.zipIdx.map fun x => (x.1.weight, f x))).map Prod.snd =
      (Node.byWeight operands).map f := by
    rw [Node.byWeight, List.map_map, show (operands.zipIdx.map fun x => (x.1.weight, f x)) = _ from rfl]
    exact (congrArg (List.map Prod.snd) hsorted).symm.trans (by rw [List.map_map]; rfl)
  rw [← hchain]
  cases operands with
  | nil => exact absurd rfl hne
  | cons x rest => rfl

variable {T : Node × Nat → Logs E Value} {c : Node × Nat → Computation (ω × List E) RuleError Value}
  {d : Node × Nat → Computation ω RuleError Value}

/-- The operands of a chain write what each of them does, one after another by weight. -/
theorem writes_chain (op : LogicalOp) {operands : List Node} (hne : operands ≠ [])
    (h : ∀ x ∈ operands.zipIdx, Writes (T x) (c x)) :
    Writes (InTurn (fun v => op.decides v.isTruthy) ((Node.byWeight operands).map T) .undefined)
      (chain op (operands.zipIdx.map fun x => (x.1.weight, c x))) := by
  rw [chain_eq_firstDeciding op hne]
  apply writes_firstDeciding
  exact forall₂_writes fun x hx => h x ((Node.byWeight_perm operands).subset hx)

/-- A chain does what it does without a log. -/
theorem watches_chain (op : LogicalOp) {operands : List Node}
    (h : ∀ x ∈ operands.zipIdx, Computation.Watches (c x) (d x)) :
    Computation.Watches (chain op (operands.zipIdx.map fun x => (x.1.weight, c x)))
      (chain op (operands.zipIdx.map fun x => (x.1.weight, d x))) := by
  by_cases hne : operands = []
  · subst hne
    exact .finished _
  · rw [chain_eq_firstDeciding op hne, chain_eq_firstDeciding op hne]
    apply watches_firstDeciding
    rw [List.forall₂_map_left_iff, List.forall₂_map_right_iff, List.forall₂_same]
    exact fun x hx => h x ((Node.byWeight_perm operands).subset hx)

end Logged

/-! ### What trees write -/

variable {watching : Combinators (ω × List Event) RuleError Value}

/-- At every place, the log of the evaluation of a node is a trace. -/
def KeepsTraces (e : Evaluator ω) (watching : Combinators (ω × List Event) RuleError Value)
    (scope : Scope) (node : Node) : Prop :=
  ∀ site, Writes (Trace site node) (e.observed watching scope site node)

-- The equations of both evaluations are derived once, ahead of the lemmas that rewrite with them.
attribute [local simp] observed valueOf

/-- The operands of a chain with their weights, at their places. -/
theorem zip_observedFrom (site : Site) (operands : List Node) :
    (operands.map Node.weight).zip (e.observedFrom watching scope site 0 operands) =
      operands.zipIdx.map fun x => (x.1.weight, e.observed watching scope (x.2 :: site) x.1) := by
  rw [observedFrom_eq_map, map_eq_map_zipIdx Node.weight operands 0, List.zip_map']

/-- Children that keep to their traces, at their places. -/
theorem writes_children {nodes : List Node} {start : Nat}
    (h : ∀ n ∈ nodes, e.KeepsTraces watching scope n) (site : Site) :
    ∀ x ∈ nodes.zipIdx start,
      Writes (childTrace site x) (e.observed watching scope (x.2 :: site) x.1) :=
  fun x hx => h x.1 (List.fst_mem_of_mem_zipIdx hx) (x.2 :: site)

/-- Children that are evaluated side by side, as many under way as the configuration allows. -/
theorem writes_gather_children {nodes : List Node} {start : Nat}
    (h : ∀ n ∈ nodes, e.KeepsTraces watching scope n) (site : Site) :
    Writes (Jointly ((nodes.zipIdx start).map (childTrace site)))
      ((e.withLog watching).gather (e.observedFrom watching scope site start nodes)) := by
  rw [observedFrom_eq_map]
  exact writes_gather (forall₂_writes (writes_children h site))

section Nodes

variable {w : Weight} {name : String}

/-- A literal invokes nothing. -/
theorem keepsTraces_literal {value : Value} {verbatim : Bool} :
    e.KeepsTraces watching scope (.literal w value verbatim) := by
  intro site
  rw [observed]
  exact writes_of_work (by simp) (.finished (.nil rfl _))

/-- A name invokes nothing. -/
theorem keepsTraces_identifier : e.KeepsTraces watching scope (.identifier w name) := by
  intro site
  rw [observed]
  exact writes_of_work (by simp) (writes_named (.nil rfl))

/-- The trace of an operator is that of its operand. -/
theorem KeepsTraces.unary {op : UnaryOp} {operand : Node} (h : e.KeepsTraces watching scope operand) :
    e.KeepsTraces watching scope (.unary w op operand) := by
  intro site
  rw [observed]
  apply writes_of_work (by simp)
  apply (h (0 :: site)).map
  intro es v? trace
  exact (work_of_child rfl rfl trace).of_isSome (by simp)

/-- The traces of two operands are merged. -/
theorem KeepsTraces.binary {op : BinaryOp} {left right : Node}
    (hleft : e.KeepsTraces watching scope left) (hright : e.KeepsTraces watching scope right) :
    e.KeepsTraces watching scope (.binary w op left right) := by
  intro site
  rw [observed]
  apply writes_of_work (by simp)
  apply (watching.writes_both (hleft (0 :: site)) (hright (1 :: site))).map
  rintro es answers? ⟨answers, habreast, hanswers⟩
  have work : Work site (.binary w op left right) es (answers.mapM id) := work_of_abreast rfl habreast
  exact work.of_isSome (by simp [hanswers])

/-- The traces of operands follow each other by weight, up to the first that decides the chain. -/
theorem KeepsTraces.logical {op : LogicalOp} {operands : List Node}
    (h : ∀ n ∈ operands, e.KeepsTraces watching scope n) :
    e.KeepsTraces watching scope (.logical w op operands) := by
  intro site
  rw [observed, zip_observedFrom]
  apply writes_of_work (by simp)
  by_cases hne : operands = []
  · subst hne
    exact .finished (.nil rfl _)
  · apply (writes_chain op hne (writes_children h site)).mono
    intro es v? turns
    exact work_of_inTurn (Node.byWeight_perm operands) (Node.pairwise_byWeight w op operands)
      (fun _ _ => Iff.rfl) turns

/-- The traces of elements are merged. -/
theorem KeepsTraces.array {elements : List Node} (h : ∀ n ∈ elements, e.KeepsTraces watching scope n) :
    e.KeepsTraces watching scope (.array w elements) := by
  intro site
  rw [observed]
  apply writes_of_work (by simp)
  apply (writes_gather_children h site).map
  rintro es vs? ⟨answers, habreast, rfl⟩
  exact (work_of_abreast rfl habreast).of_isSome (by simp)

/-- The trace of the selected branch follows that of the test. -/
theorem KeepsTraces.conditional {test consequent alternate : Node}
    (htest : e.KeepsTraces watching scope test) (hconsequent : e.KeepsTraces watching scope consequent)
    (halternate : e.KeepsTraces watching scope alternate) :
    e.KeepsTraces watching scope (.conditional w test consequent alternate) := by
  intro site
  rw [observed]
  apply writes_of_work (by simp)
  apply (htest (0 :: site)).bind
  · intro es trace
    exact work_of_test trace
  · intro es v trace
    by_cases htruthy : v.isTruthy
    · rw [if_pos htruthy]
      exact (hconsequent (1 :: site)).mono fun es' v? branch =>
        work_of_branch (.inl ⟨rfl, rfl, htruthy⟩) trace branch
    · rw [if_neg htruthy]
      exact (halternate (2 :: site)).mono fun es' v? branch =>
        work_of_branch (.inr ⟨rfl, rfl, htruthy⟩) trace branch

/-- The traces of expressions follow each other. -/
theorem KeepsTraces.sequence {expressions : List Node}
    (h : ∀ n ∈ expressions, e.KeepsTraces watching scope n) :
    e.KeepsTraces watching scope (.sequence w expressions) := by
  intro site
  rw [observed, observedFrom_eq_map]
  apply writes_of_work (by simp)
  apply (writes_inOrder (forall₂_writes (writes_children h site)) .undefined).mono
  intro es v? turns
  have stopped : (Node.sequence w expressions).IsStoppedBy fun _ => false := by
    simp [Node.IsStoppedBy, Node.Skips]
  exact work_of_inTurn (.refl _) (pairwise_zipIdx_lt expressions) stopped turns

/-- A call writes down that it calls its feature, once its arguments are done, and then its answer. -/
theorem writes_call {u : Weight} {site : Site} {arguments : List Node} {feature : Feature ω}
    {c : Computation (ω × List Event) RuleError (List Value)}
    (h : Writes (Work site (.call w (.identifier u name) arguments)) c) :
    Writes (Trace site (.call w (.identifier u name) arguments))
      (.recording (.answered site) (.bind c fun values =>
        .emit (.invoked site) (.mapError (.featureFailed name) (feature.withLog.call scope values)))) := by
  -- Either the arguments are not done yet, or the feature has been called.
  let called : Logs Event Value := fun es v? =>
    v? = none ∧ Trace site (.call w (.identifier u name) arguments) es none ∨
      ∃ es', es = es' ++ [.invoked site] ∧
        Work site (.call w (.identifier u name) arguments) es' (some ())
  have hcalled : Writes called (.bind c fun values =>
        .emit (.invoked site) (.mapError (.featureFailed name) (feature.withLog.call scope values))) := by
    apply h.bind
    · intro es work
      exact .inl ⟨rfl, work.underway⟩
    · intro es values work
      have hdone : Work site _ es (some ()) := work.of_isSome fun _ => rfl
      refine .emit (.inl ⟨rfl, by simpa using work.underway⟩) fun _ _ => ?_
      exact (Writes.quietly (fun v? => .inr ⟨es, rfl, hdone⟩) _).mapError _
  apply hcalled.recording
  · rintro es (⟨-, h⟩ | ⟨es', rfl, work⟩)
    · exact h
    · exact work.closing .invoked
  · rintro es v (⟨hnone, -⟩ | ⟨es', rfl, work⟩)
    · cases hnone
    · refine ⟨work.closing .invoked, ?_⟩
      rw [List.append_assoc]
      exact work.closing .returned

/-- The invocation follows the merged traces of the arguments. -/
theorem KeepsTraces.call {callee : Node} {arguments : List Node}
    (h : ∀ n ∈ arguments, e.KeepsTraces watching scope n) :
    e.KeepsTraces watching scope (.call w callee arguments) := by
  intro site
  rw [observed, callee?_withLog]
  cases hcallee : e.callee? callee with
  | none =>
      -- The call fails before it writes anything.
      refine Writes.recording (T := fun es v? => es = [] ∧ v? = none) (.finished ⟨rfl, rfl⟩) _ ?_ ?_
      · rintro es ⟨rfl, -⟩
        exact .idle _ _
      · rintro es v ⟨-, hnone⟩
        cases hnone
  | some found =>
      obtain ⟨name, feature⟩ := found
      obtain ⟨⟨u, rfl⟩, -⟩ := eq_of_callee? hcallee
      apply writes_call
      apply (writes_gather_children h site).mono
      rintro es vs? ⟨answers, habreast, rfl⟩
      exact work_of_abreast rfl habreast

/-- The trace of a member access is that of its object. -/
theorem KeepsTraces.member {object : Node} {path : Path} (h : e.KeepsTraces watching scope object) :
    e.KeepsTraces watching scope (.member w object path) := by
  intro site
  rw [observed]
  apply writes_of_work (by simp)
  apply (h (0 :: site)).bind
  · intro es trace
    exact work_of_child rfl rfl trace
  · intro es v trace
    apply writes_memberOf
    intro v?
    rw [List.append_nil]
    exact (work_of_child rfl rfl trace).of_isSome fun _ => rfl

end Nodes

/-- The log of an evaluation is a trace, however parts are evaluated side by side. -/
theorem writes_observed (e : Evaluator ω) (watching : Combinators (ω × List Event) RuleError Value)
    (scope : Scope) (site : Site) (node : Node) :
    Writes (Trace site node) (e.observed watching scope site node) := by
  suffices h : e.KeepsTraces watching scope node from h site
  induction node with
  | literal w value verbatim => exact keepsTraces_literal
  | identifier w name => exact keepsTraces_identifier
  | unary w op operand ih => exact ih.unary
  | binary w op left right ihLeft ihRight => exact ihLeft.binary ihRight
  | logical w op operands ih => exact .logical ih
  | array w elements ih => exact .array ih
  | conditional w test consequent alternate ihTest ihConsequent ihAlternate =>
      exact ihTest.conditional ihConsequent ihAlternate
  | sequence w expressions ih => exact .sequence ih
  | call w callee arguments ihCallee ih => exact .call ih
  | member w object path ih => exact ih.member

/-! ### What trees do -/

/-- An evaluation with its log is the evaluation, where parts with a log are evaluated side by side as
parts without one. The induction is on the tree: what is written down changes no step. -/
theorem watches_observed (watches : watching.Watches e.combinators) (scope : Scope) (site : Site)
    (node : Node) :
    Computation.Watches (e.observed watching scope site node) (e.valueOf scope node) := by
  have children {nodes : List Node} (h : ∀ node ∈ nodes, ∀ site,
      Computation.Watches (e.observed watching scope site node) (e.valueOf scope node)) (site : Site)
      (start : Nat) : List.Forall₂ Computation.Watches (e.observedFrom watching scope site start nodes)
        (e.valuesOf scope nodes) := by
    rw [observedFrom_eq_map, valuesOf_eq_map, map_eq_map_zipIdx (e.valueOf scope) nodes start,
      List.forall₂_map_left_iff, List.forall₂_map_right_iff, List.forall₂_same]
    exact fun x hx => h x.1 (List.fst_mem_of_mem_zipIdx hx) (x.2 :: site)
  induction node generalizing site with
  | literal w value verbatim =>
      rw [observed, valueOf]
      exact (Watches.finished _).recording _
  | identifier w name =>
      rw [observed, valueOf]
      apply Watches.recording
      unfold named
      rw [feature?_withLog]
      cases e.feature? name with
      | none => exact .finished _
      | some feature => exact .finished _
  | unary w op operand ih =>
      rw [observed, valueOf]
      exact ((ih (0 :: site)).mapOutcome _).recording _
  | binary w op left right ihLeft ihRight =>
      rw [observed, valueOf]
      exact ((watches.both (ihLeft (0 :: site)) (ihRight (1 :: site))).mapOutcome _).recording _
  | logical w op operands ih =>
      rw [observed, valueOf, zip_observedFrom, weighedValuesOf_eq_map,
        map_eq_map_zipIdx (fun n => (n.weight, e.valueOf scope n)) operands 0]
      apply Watches.recording
      exact watches_chain op fun x hx => ih x.1 (List.fst_mem_of_mem_zipIdx hx) (x.2 :: site)
  | array w elements ih =>
      rw [observed, valueOf]
      exact ((watches_gather rfl watches (children ih site 0)).mapOutcome _).recording _
  | conditional w test consequent alternate ihTest ihConsequent ihAlternate =>
      rw [observed, valueOf]
      refine Watches.recording ((ihTest (0 :: site)).bind fun v => ?_) _
      split
      · exact ihConsequent (1 :: site)
      · exact ihAlternate (2 :: site)
  | sequence w expressions ih =>
      rw [observed, valueOf]
      exact (watches_inOrder (children ih site 0) .undefined).recording _
  | call w callee arguments ihCallee ih =>
      rw [observed, valueOf, callee?_withLog]
      cases e.callee? callee with
      | none => exact (Watches.finished _).recording _
      | some found =>
          refine Watches.recording ((watches_gather rfl watches (children ih site 1)).bind fun vs => ?_) _
          exact .emit fun _ _ => (Watches.quietly _).mapOutcome _
  | member w object path ih =>
      rw [observed, valueOf]
      exact Watches.recording ((ih (0 :: site)).bind fun v => watches_memberOf rfl) _

end Evaluator

end RuleLang
