import RuleLang.Proofs.Evaluation.Answers
import RuleLang.Proofs.Node.Induction
import RuleLang.Proofs.Success
import RuleLang.Sample

/-!
# Schedules do not matter

How often the calls of features suspend, which of the parts under way goes on, and how many parts of a list
are under way, does not show in the value of a tree: evaluation comes to what evaluating every part by itself
comes to, elements and arguments in the order in which they are written.

* `Computation.Yields`: every outcome is the same answer, or every outcome is a failure.
* `Evaluator.Outcomes`, `Evaluator.Follows`: what calls come to, and evaluators whose features come to
  that.
* `Evaluator.plainValue`: the value of a tree, without suspensions and without anything under way.
* `Evaluator.Follows.yields_valueOf`: evaluation comes to the plain value.
* `Evaluator.run_valueOf_of_follows`: two evaluations in which calls come to the same have the same
  value, or both fail.
-/

namespace RuleLang

namespace Computation

variable {ω ε α β : Type}

/-- Every outcome of a computation is the given answer, or every outcome is a failure if none is
given. -/
def Yields (c : Computation ω ε α) (answer? : Option α) : Prop :=
  c.Ends fun outcome => outcome.toOption = answer?

variable {c : Computation ω ε α} {a? : Option α}

/-- An answer at once is an answer. -/
theorem yields_pure (a : α) : (pure a : Computation ω ε α).Yields (some a) :=
  ends_pure.mpr rfl

/-- A failure at once is no answer. -/
theorem yields_fail (e : ε) : (fail e : Computation ω ε α).Yields none :=
  ends_fail.mpr rfl

/-- A changed answer is the change of the answer, if there is one. -/
theorem Yields.map (h : c.Yields a?) (f : α → β) : (map f c).Yields (a?.map f) := by
  apply ends_mapOutcome.mpr
  apply Ends.mono h
  intro outcome houtcome
  rw [← houtcome]
  cases outcome <;> rfl

/-- Changing the failure keeps whether there is an answer. -/
theorem Yields.mapError (h : c.Yields a?) (f : ε → ε) : (mapError f c).Yields a? := by
  apply ends_mapOutcome.mpr
  apply Ends.mono h
  intro outcome houtcome
  rw [← houtcome]
  cases outcome <;> rfl

/-- Pauses make no difference to the answer. -/
theorem Yields.delay (h : c.Yields a?) (rounds : Nat) : (delay rounds c).Yields a? := by
  induction rounds with
  | zero => exact h
  | succ rounds ih => exact ih

/-- One computation after another yields what the second does for the answer of the first. -/
theorem Yields.bind {next : α → Computation ω ε β} {next? : α → Option β} (h : c.Yields a?)
    (hnext : ∀ a, a? = some a → (next a).Yields (next? a)) : (bind c next).Yields (a?.bind next?) := by
  apply ends_bind h
  · intro a ha
    have ha : a? = some a := ha.symm
    rw [ha, Option.bind_some]
    exact hnext a ha
  · intro e he
    have he : a? = none := he.symm
    rw [he]
    rfl

/-! ### Any number of them -/

/-- Each of a list of computations yields what stands in its place. -/
abbrev YieldEach (cs : List (Computation ω ε α)) (answers : List (Option α)) : Prop :=
  List.Forall₂ Yields cs answers

variable {cs : List (Computation ω ε α)} {answers : List (Option α)}

/-- Computations with known answers end with these answers. -/
theorem YieldEach.endAs (h : YieldEach cs answers) :
    EndAs (answers.map fun answer? outcome => outcome.toOption = answer?) cs := by
  rw [EndAs, List.forall₂_map_left_iff]
  exact h.flip

/-- Where every place allows one answer or none, all answers in order are the only one, and there is
none as soon as one of them is missing. -/
theorem toOption_eq_of_each {outcome : Except ε (List α)}
    (h : Each (answers.map fun answer? outcome => outcome.toOption = answer?) outcome) :
    outcome.toOption = answers.mapM id := by
  cases outcome with
  | ok as =>
      have heach : List.Forall₂ (fun answer? a => some a = answer?) answers as :=
        List.forall₂_map_left_iff.mp h
      clear h
      induction heach with
      | nil => rfl
      | cons head tail ih =>
          rw [List.mapM_cons, ← ih, ← head]
          rfl
  | error e =>
      obtain ⟨P, hP, he⟩ := h
      obtain ⟨answer?, hmem, rfl⟩ := List.mem_map.mp hP
      have hnone : none ∈ answers := by
        rwa [show none = answer? from he]
      exact (mapM_eq_none_of_mem hnone).symm

/-- One computation after another yields what the last does, if none fails. -/
theorem YieldEach.inOrder (h : YieldEach cs answers) (last : α) :
    (inOrder last cs).Yields (answers.foldlM (fun _ answer? => answer?) last) := by
  induction h generalizing last with
  | nil => exact yields_pure last
  | cons head tail ih => exact head.bind fun a _ => ih a

end Computation

open RuleLang.Computation

/-- Two computations side by side yield both answers. -/
theorem Combinators.yields_both {ω ε α : Type} (combinators : Combinators ω ε α)
    {c d : Computation ω ε α} {a? b? : Option α} (h : c.Yields a?) (hd : d.Yields b?) :
    (combinators.both c d).Yields (a?.bind fun a => b?.map (a, ·)) := by
  refine (combinators.ends_both h hd).mono ?_
  intro outcome houtcome
  match outcome, houtcome with
  | .ok (a, b), ⟨ha, hb⟩ =>
      have ha : a? = some a := ha.symm
      have hb : b? = some b := hb.symm
      rw [ha, hb]
      rfl
  | .error e, .inl he =>
      have he : a? = none := he.symm
      rw [he]
      rfl
  | .error e, .inr he =>
      have he : b? = none := he.symm
      rw [he]
      cases a? <;> rfl

namespace Evaluator

variable {ω ω' : Type}

/-! ### Plain values -/

/-- What the calls of each feature come to, for a scope and the values of the arguments: a value, or a
failure. -/
abbrev Outcomes := String → Option (Scope → List Value → Option Value)

/-- The operands of a chain up to the first that decides it. -/
def plainFirstDeciding (op : LogicalOp) (last : Value) : List (Option Value) → Option Value
  | [] => some last
  | operand :: rest =>
    operand.bind fun value =>
      if op.decides value.isTruthy then some value else plainFirstDeciding op value rest

/-- The value of a chain: that of the first operand by weight that decides it, and a failure if an
operand up to there fails. -/
def plainChain (op : LogicalOp) (operands : List (Weight × Option Value)) : Option Value :=
  match operands with
  | [] => some (op.combine [])
  | operands => plainFirstDeciding op .undefined ((byWeight operands).map Prod.snd)

/-- The member of a value. A missing one is undefined, or a failure where members are strict. -/
def plainMember (strict : Bool) (path : Path) (value : Value) : Option Value :=
  match value.getPath? path with
  | some found => some found
  | none => if strict then none else some .undefined

mutual

/-- The value of a tree, if it has one, when every part is evaluated by itself: the elements of an array
and the arguments of a call are those of the trees in the order in which they are written. -/
def plainValue (outcomes : Outcomes) (strict : Bool) (scope : Scope) : Node → Option Value
  | .literal _ value _ => some value
  | .identifier _ name =>
    if (outcomes name).isSome then none else some ((scope.get? name).getD .undefined)
  | .unary _ op operand => (plainValue outcomes strict scope operand).map op.apply
  | .binary _ op left right =>
    (plainValue outcomes strict scope left).bind fun a =>
      (plainValue outcomes strict scope right).map fun b => op.apply a b
  | .logical _ op operands => plainChain op (weighedPlainValues outcomes strict scope operands)
  | .array _ elements => ((plainValues outcomes strict scope elements).mapM id).map .array
  | .conditional _ test consequent alternate =>
    (plainValue outcomes strict scope test).bind fun value =>
      if value.isTruthy then plainValue outcomes strict scope consequent
      else plainValue outcomes strict scope alternate
  | .sequence _ expressions =>
    (plainValues outcomes strict scope expressions).foldlM (fun _ answer? => answer?) .undefined
  | .call _ callee arguments =>
    (callee.identifier?.bind outcomes).bind fun outcome =>
      ((plainValues outcomes strict scope arguments).mapM id).bind (outcome scope)
  | .member _ object path => (plainValue outcomes strict scope object).bind (plainMember strict path)

/-- The values of trees, each by itself. -/
def plainValues (outcomes : Outcomes) (strict : Bool) (scope : Scope) : List Node → List (Option Value)
  | [] => []
  | node :: rest => plainValue outcomes strict scope node :: plainValues outcomes strict scope rest

/-- The values of trees, each by itself, with the weights of the trees. -/
def weighedPlainValues (outcomes : Outcomes) (strict : Bool) (scope : Scope) :
    List Node → List (Weight × Option Value)
  | [] => []
  | node :: rest =>
    (node.weight, plainValue outcomes strict scope node) ::
      weighedPlainValues outcomes strict scope rest

end

/-! ### Evaluators that follow outcomes -/

/-- The features of an evaluator are those with an outcome, and their calls come to it, however they act
and however often they suspend before. -/
def Follows (e : Evaluator ω) (outcomes : Outcomes) : Prop :=
  ∀ name, Option.Rel
    (fun (feature : Feature ω) outcome =>
      ∀ scope arguments, (feature.call scope arguments).Yields (outcome scope arguments))
    (e.feature? name) (outcomes name)

variable {e : Evaluator ω} {outcomes : Outcomes} {strict : Bool} {scope : Scope}

/-- Parts yield all answers in order, however many of them are under way. -/
theorem yields_gather {cs : List (Computation ω RuleError Value)} {answers : List (Option Value)}
    (h : YieldEach cs answers) : (e.gather cs).Yields (answers.mapM id) :=
  (ends_gather h.endAs).mono fun _ houtcome => toOption_eq_of_each houtcome

/-- Operands up to the first that decides answer as their answers do. -/
theorem yields_firstDeciding (op : LogicalOp) {cs : List (Computation ω RuleError Value)}
    {answers : List (Option Value)} (h : YieldEach cs answers) (last : Value) :
    (firstDeciding op last cs).Yields (plainFirstDeciding op last answers) := by
  induction h generalizing last with
  | nil => exact yields_pure last
  | cons head tail ih =>
      apply head.bind
      intro value _
      by_cases hdecides : op.decides value.isTruthy
      · rw [if_pos hdecides, if_pos hdecides]
        exact yields_pure value
      · rw [if_neg hdecides, if_neg hdecides]
        exact ih value

/-- A chain yields what its operands do in order of their weights. -/
theorem yields_chain (op : LogicalOp)
    (operands : List (Weight × Computation ω RuleError Value × Option Value))
    (h : ∀ x ∈ operands, x.2.1.Yields x.2.2) :
    (chain op (operands.map fun x => (x.1, x.2.1))).Yields
      (plainChain op (operands.map fun x => (x.1, x.2.2))) := by
  have sorted : YieldEach ((byWeight (operands.map fun x => (x.1, x.2.1))).map Prod.snd)
      ((byWeight (operands.map fun x => (x.1, x.2.2))).map Prod.snd) := by
    rw [← map_byWeight Prod.fst, ← map_byWeight Prod.snd, List.map_map, List.map_map, YieldEach,
      List.forall₂_map_left_iff, List.forall₂_map_right_iff, List.forall₂_same]
    intro x hx
    exact h x ((byWeight_perm operands).mem_iff.mp hx)
  cases operands with
  | nil => exact yields_pure _
  | cons x rest => exact yields_firstDeciding op sorted .undefined

/-- An evaluator that follows outcomes knows the names that have one. -/
theorem Follows.feature? (h : e.Follows outcomes) (name : String) :
    (e.feature? name = none ∧ outcomes name = none) ∨
      ∃ feature outcome, e.feature? name = some feature ∧ outcomes name = some outcome ∧
        ∀ scope arguments, (feature.call scope arguments).Yields (outcome scope arguments) := by
  have hname := h name
  generalize e.feature? name = feature? at hname
  generalize outcomes name = outcome? at hname
  cases hname with
  | none => exact .inl ⟨rfl, rfl⟩
  | some hcall => exact .inr ⟨_, _, rfl, rfl, hcall⟩

/-- The values of trees one by one. -/
theorem yieldEach_valuesOf {nodes : List Node}
    (h : ∀ node ∈ nodes, (e.valueOf scope node).Yields (plainValue outcomes strict scope node)) :
    YieldEach (e.valuesOf scope nodes) (plainValues outcomes strict scope nodes) := by
  induction nodes with
  | nil => exact .nil
  | cons node rest ih =>
      rw [List.forall_mem_cons] at h
      exact .cons h.1 (ih h.2)

/-- The weighed plain values of several trees are those of each of them. -/
theorem weighedPlainValues_eq_map (nodes : List Node) :
    weighedPlainValues outcomes strict scope nodes =
      nodes.map fun node => (node.weight, plainValue outcomes strict scope node) := by
  induction nodes with
  | nil => rw [weighedPlainValues, List.map_nil]
  | cons node rest ih => rw [weighedPlainValues, ih, List.map_cons]

/-- Evaluation comes to the plain value of a tree. The induction is on the tree; that parts are evaluated
side by side shows in `yields_both` and `yields_gather` only. -/
theorem Follows.yields_valueOf (h : e.Follows outcomes) (scope : Scope) (tree : Node) :
    (e.valueOf scope tree).Yields (plainValue outcomes e.config.strictMembers scope tree) := by
  induction tree with
  | literal w value verbatim =>
      rw [valueOf, plainValue]
      exact yields_pure value
  | identifier w name =>
      rw [valueOf, plainValue, named]
      rcases h.feature? name with ⟨hfree, hnone⟩ | ⟨feature, outcome, hfeature, hsome, -⟩
      · rw [hfree, hnone]
        exact yields_pure _
      · rw [hfeature, hsome]
        exact yields_fail _
  | unary w op operand ih =>
      rw [valueOf, plainValue]
      exact ih.map op.apply
  | binary w op left right ihLeft ihRight =>
      rw [valueOf, plainValue]
      have hboth := (e.combinators.yields_both ihLeft ihRight).map fun pair => op.apply pair.1 pair.2
      rw [Option.map_bind] at hboth
      simp only [Function.comp_def, Option.map_map] at hboth
      exact hboth
  | logical w op operands ih =>
      rw [valueOf, plainValue, weighedValuesOf_eq_map, weighedPlainValues_eq_map]
      have hchain := yields_chain op (operands.map fun node => (node.weight, e.valueOf scope node,
        plainValue outcomes e.config.strictMembers scope node))
        (List.forall_mem_map.mpr ih)
      rw [List.map_map, List.map_map] at hchain
      exact hchain
  | array w elements ih =>
      rw [valueOf, plainValue]
      exact (yields_gather (yieldEach_valuesOf ih)).map Value.array
  | conditional w test consequent alternate ihTest ihConsequent ihAlternate =>
      rw [valueOf, plainValue]
      apply ihTest.bind
      intro value _
      by_cases htruthy : value.isTruthy
      · rw [if_pos htruthy, if_pos htruthy]
        exact ihConsequent
      · rw [if_neg htruthy, if_neg htruthy]
        exact ihAlternate
  | sequence w expressions ih =>
      rw [valueOf, plainValue]
      exact (yieldEach_valuesOf ih).inOrder .undefined
  | call w callee arguments ihCallee ih =>
      rw [valueOf, plainValue, callee?]
      cases callee.identifier? with
      | none => exact yields_fail _
      | some name =>
          rw [Option.bind_some]
          dsimp only
          rcases h.feature? name with ⟨hfree, hnone⟩ | ⟨feature, outcome, hfeature, hsome, hcall⟩
          · rw [hfree, hnone]
            exact yields_fail _
          · rw [hfeature, hsome]
            apply (yields_gather (yieldEach_valuesOf ih)).bind
            intro values _
            exact (hcall scope values).mapError _
  | member w object path ih =>
      rw [valueOf, plainValue]
      apply ih.bind
      intro value _
      rw [memberOf, plainMember]
      cases value.getPath? path with
      | some found => exact yields_pure found
      | none =>
          by_cases hstrict : e.config.strictMembers
          · rw [if_pos hstrict, if_pos hstrict]
            exact yields_fail _
          · rw [if_neg hstrict, if_neg hstrict]
            exact yields_pure _

/-- Two evaluations of a tree in a scope in which calls come to the same end alike: both answer with the
plain value of the tree, or it has none and both fail. Neither how often calls suspend, nor the order in
which they act, nor how parts are evaluated side by side, nor the bound on what is under way makes a
difference. -/
theorem run_valueOf_of_follows {e : Evaluator ω} {e' : Evaluator ω'} {outcomes : Outcomes}
    (h : e.Follows outcomes) (h' : e'.Follows outcomes)
    (strict : e'.config.strictMembers = e.config.strictMembers) (scope : Scope) (tree : Node)
    (world : ω) (world' : ω') :
    (∃ value, plainValue outcomes e.config.strictMembers scope tree = some value ∧
        ((e.valueOf scope tree).run world).1 = .ok value ∧
        ((e'.valueOf scope tree).run world').1 = .ok value) ∨
      (plainValue outcomes e.config.strictMembers scope tree = none ∧
        ∃ err err', ((e.valueOf scope tree).run world).1 = .error err ∧
          ((e'.valueOf scope tree).run world').1 = .error err') := by
  have hrun := Ends.run (h.yields_valueOf scope tree) world
  have hrun' := Ends.run (h'.yields_valueOf scope tree) world'
  rw [strict] at hrun'
  generalize ((e.valueOf scope tree).run world).1 = outcome at hrun ⊢
  generalize ((e'.valueOf scope tree).run world').1 = outcome' at hrun' ⊢
  rw [← hrun] at hrun' ⊢
  cases outcome with
  | ok value =>
      cases outcome' with
      | ok value' =>
          cases hrun'
          exact .inl ⟨value, rfl, rfl, rfl⟩
      | error err' => cases hrun'
  | error err =>
      cases outcome' with
      | ok value' => cases hrun'
      | error err' => exact .inr ⟨rfl, err, err', rfl, rfl⟩

end Evaluator

namespace Sample

/-- A feature that answers with its arguments. The world counts the calls, and each call suspends as often
as its number is assigned. -/
def pausing (pauses : Nat → Nat) : Feature Nat where
  describe _ := .ok ⟨1, .scalar "array", none⟩
  argumentCompiler? := none
  call _ arguments := .act (· + 1) fun count => .delay (pauses count) (.pure (.array arguments))

/-- An evaluator with a feature that pauses. -/
def pausingEvaluator (pauses : Nat → Nat) (maxFanout : Option Nat) : Evaluator Nat :=
  ⟨[("list", pausing pauses)], ⟨maxFanout, true⟩, .rounds⟩

/-- What the feature that pauses comes to. -/
def listOutcome : Evaluator.Outcomes :=
  fun name => if "list" = name then some fun _ arguments => some (.array arguments) else none

/-- Two calls side by side, one of them around a third. -/
def nestedLists : Node :=
  .array 0 [callOf "list" [.ofValue (.string "a") false, callOf "list" []],
    callOf "list" [.ofValue (.string "b") false]]

/-- However long the features pause, they answer with the same lists. -/
theorem follows_pausingEvaluator (pauses : Nat → Nat) (maxFanout : Option Nat) :
    (pausingEvaluator pauses maxFanout).Follows listOutcome := by
  intro name
  by_cases hname : "list" = name
  · have hfeature : (pausingEvaluator pauses maxFanout).feature? name = some (pausing pauses) :=
      if_pos hname
    rw [hfeature, listOutcome, if_pos hname]
    apply Option.Rel.some
    intro _ arguments count
    exact (Computation.yields_pure _).delay (pauses count)
  · have hfree : (pausingEvaluator pauses maxFanout).feature? name = none := if_neg hname
    rw [hfree, listOutcome, if_neg hname]
    exact .none

/-- All at once without pauses, and one at a time with a pause for every call: the lists are the same. -/
theorem run_valueOf_nestedLists :
    (((pausingEvaluator (fun _ => 0) none).valueOf scope nestedLists).run 0).1 =
        .ok (.array [.array [.string "a", .array []], .array [.string "b"]]) ∧
      (((pausingEvaluator (fun count => 3 - count) (some 0)).valueOf scope nestedLists).run 0).1 =
        .ok (.array [.array [.string "a", .array []], .array [.string "b"]]) := by
  have hplain : Evaluator.plainValue listOutcome true scope nestedLists =
      some (.array [.array [.string "a", .array []], .array [.string "b"]]) := by rfl
  rcases Evaluator.run_valueOf_of_follows (follows_pausingEvaluator (fun _ => 0) none)
      (follows_pausingEvaluator (fun count => 3 - count) (some 0)) rfl scope nestedLists 0 0 with
    ⟨value, hvalue, hrun, hrun'⟩ | ⟨hnone, -⟩
  · cases hplain.symm.trans hvalue
    exact ⟨hrun, hrun'⟩
  · cases hplain.symm.trans hnone

end Sample

end RuleLang
