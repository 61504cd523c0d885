import RuleLang.Proofs.Engine.Registration
import RuleLang.Proofs.Evaluation.Failure
import RuleLang.Proofs.Optimizer.Parts
import RuleLang.Sample

/-!
# How a validated tree can fail

A validated tree is evaluated by the engine that validated it, or by a later state of that engine, to
which features have been added or which is configured differently. In all of them every call of the tree
is a call of the feature that described it, so that only three kinds of failure are left.

* `Engine.Later`: the later states of an engine.
* `Engine.CallDescribed`: a call of a feature that has described it.
* `Engine.exists_callDescribed`: every call in a validated tree is one, in every later state.
* `Engine.failure_of_validate`: how the evaluation of a validated tree fails.
-/

namespace RuleLang

open Node (Subtree)
open RuleLang.Computation

variable {ω : Type}

/-- An aggregate has a statement for every number of arguments that it accepts. -/
theorem Aggregate.exists_statement {aggregate : Aggregate} {arguments : List Value}
    (harity : aggregate.checkArity arguments.length = .ok ()) :
    ∃ statement, aggregate.statement arguments = .ok statement := by
  unfold statement
  rw [harity]
  exact ⟨_, rfl⟩

/-- Parts that answer together give one answer each. -/
theorem Evaluator.length_of_canEnd_gather {e : Evaluator ω} {parts : List (Computation ω RuleError Value)}
    {values : List Value} (h : (e.gather parts).CanEnd (.ok values)) : values.length = parts.length := by
  have hparts : EndAs (parts.map fun _ _ => True) parts := by
    rw [EndAs, List.forall₂_map_left_iff, List.forall₂_same]
    intro c hc
    exact (ends_canEnd c).mono fun _ _ => trivial
  have heach := (ends_gather hparts).of_canEnd h
  have hlength := List.Forall₂.length_eq heach
  rw [List.length_map] at hlength
  exact hlength.symm

namespace Engine

variable {engine later : Engine ω}

/-- The later states of an engine: features are added to it and it is configured anew. -/
inductive Later (engine : Engine ω) : Engine ω → Prop
  | refl : Later engine engine
  | addFeature {later : Engine ω} (name : String) (feature : Feature ω) (h : Later engine later) :
      Later engine (later.addFeature name feature)
  | withConfig {later : Engine ω} (config : RuleConfig) (h : Later engine later) :
      Later engine (later.withConfig config)

/-- What a name was bound to it is bound to later. -/
theorem Later.feature? (h : engine.Later later) {name : String} {feature : Feature ω}
    (known : engine.evaluator.feature? name = some feature) :
    later.evaluator.feature? name = some feature := by
  induction h with
  | refl => exact known
  | addFeature other added _ ih =>
      rw [feature?_addFeature, if_neg]
      · exact ih
      · rintro ⟨rfl, hfree⟩
        rw [ih] at hfree
        cases hfree
  | withConfig config _ ih => exact ih

/-- A validated tree is the tree of a settled one. -/
theorem exists_settled_of_validate {ast tree : Node} (h : engine.validate ast = .ok tree) :
    ∃ r, engine.optimizer.Settled r ∧ r.node = tree := by
  obtain ⟨r, hr, hnode⟩ := map_eq_ok_iff.mp h
  exact ⟨r, Optimizer.settled_of_reduceAt hr, hnode⟩

/-- A call of a feature which has described a call with that many arguments. -/
structure CallDescribed (e : Evaluator ω) (callee : Node) (arguments : List Node) (name : String)
    (feature : Feature ω) : Prop where
  called : e.callee? callee = some (name, feature)
  described : ∃ results description, results.length = arguments.length ∧
    feature.describe results = .ok description

/-- Every call in a validated tree is the call of a feature that described it, and stays one. -/
theorem exists_callDescribed (reachable : engine.Reachable) {ast tree : Node}
    (validated : engine.validate ast = .ok tree) (h : engine.Later later) {w : Weight} {callee : Node}
    {arguments : List Node} (hsite : Subtree (.call w callee arguments) tree) :
    ∃ name feature, CallDescribed later.evaluator callee arguments name feature := by
  obtain ⟨r, settled, rfl⟩ := exists_settled_of_validate validated
  obtain ⟨x, hx, hnode⟩ := settled.exists_of_subtree hsite
  obtain ⟨name, static, xs, description, rfl, known, rfl, described⟩ := hx.of_call hnode
  obtain ⟨feature, registered, rfl⟩ := reachable.coherent.exists_feature known
  obtain ⟨description, described, -⟩ := map_eq_ok_iff.mp described
  refine ⟨name, feature, ?_, xs.map Reduced.result, description, ?_, described⟩
  · simp [Evaluator.callee?, Node.identifier?, h.feature? registered]
  · rw [List.length_map, List.length_map]

/-- An aggregate that has described a call has a statement for whatever its arguments answer. -/
theorem CallDescribed.exists_statement {e : Evaluator ω} {callee : Node} {arguments : List Node}
    {name : String} {aggregate : Aggregate} {compiler : Sql.Compiler} {runner : QueryRunner ω}
    (h : CallDescribed e callee arguments name (aggregate.feature compiler runner)) {scope : Scope}
    {values : List Value} (answered : (e.gather (e.valuesOf scope arguments)).CanEnd (.ok values)) :
    ∃ statement, aggregate.statement values = .ok statement := by
  obtain ⟨results, description, hlength, described⟩ := h.described
  obtain ⟨checked, harity, -⟩ := bind_eq_ok_iff.mp described
  have hvalues : values.length = results.length := by
    rw [Evaluator.length_of_canEnd_gather answered, Evaluator.valuesOf_eq_map, List.length_map, hlength]
  apply Aggregate.exists_statement
  rw [hvalues]
  exact harity

/-- How the evaluation of a validated tree fails, in whatever later state of the engine: the call of a
feature failed, or a member is missing and members are strict, or a feature is used as a value. Calls of
what is no feature do not occur in the tree, and the statements of aggregates do not fail. -/
theorem failure_of_validate (reachable : engine.Reachable) {ast tree : Node}
    (validated : engine.validate ast = .ok tree) (h : engine.Later later) (scope : Scope) :
    (∀ world err, ((later.valueOf scope tree).run world).1 = .error err →
        later.evaluator.Failure scope tree err) ∧
      (∀ w callee arguments, Subtree (.call w callee arguments) tree →
        (later.evaluator.callee? callee).isSome) ∧
      ∀ w callee arguments name aggregate compiler runner values,
        Subtree (.call w callee arguments) tree →
        later.evaluator.callee? callee = some (name, Aggregate.feature aggregate compiler runner) →
        (later.evaluator.gather (later.evaluator.valuesOf scope arguments)).CanEnd (.ok values) →
        ∃ statement, aggregate.statement values = .ok statement := by
  refine ⟨?_, ?_, ?_⟩
  · intro world err hrun
    have calls : later.evaluator.CallsFeatures tree := by
      intro w callee arguments hsite
      obtain ⟨name, feature, hcall⟩ := exists_callDescribed reachable validated h hsite
      exact ⟨name, feature, hcall.called⟩
    exact Ends.run (Evaluator.failsWith_valueOf calls) world err hrun
  · intro w callee arguments hsite
    obtain ⟨name, feature, hcall⟩ := exists_callDescribed reachable validated h hsite
    rw [hcall.called]
    rfl
  · intro w callee arguments name aggregate compiler runner values hsite hcallee answered
    obtain ⟨called, feature, hcall⟩ := exists_callDescribed reachable validated h hsite
    cases hcall.called.symm.trans hcallee
    exact hcall.exists_statement answered

end Engine

namespace Sample

/-- The number of past transactions against the amount under review. -/
def countedAmount : Node :=
  .binary 0 .less (callOf "count" []) (memberOf "trx" "amount")

/-- The sample engine after a feature has taken the name of the transaction under review. -/
def takenEngine : Engine Unit :=
  (engine statementText).addFeature "trx" Classifier.credit.feature

/-- The validated rule fails once a later feature takes a name that it reads. -/
theorem failure_of_validate_countedAmount : ∃ tree,
    (engine (ω := Unit) statementText).validate countedAmount = .ok tree ∧
      ((takenEngine.valueOf scope tree).run ()).1 =
        .error (.notCallable "feature `trx` can only be called") ∧
      takenEngine.evaluator.Failure scope tree (.notCallable "feature `trx` can only be called") ∧
      ∃ statement, Aggregate.count.statement [] = .ok statement := by
  have reachable : (engine (ω := Unit) statementText).Reachable :=
    (Engine.Reachable.new valueSchema).withTransactionFeatures compiler statementText
  have later : (engine statementText).Later takenEngine := .addFeature _ _ .refl
  have hvalidate : ∃ tree, (engine (ω := Unit) statementText).validate countedAmount = .ok tree ∧
      tree = .binary (.ofNat 105) .less (.call (.ofNat 102) (.identifier 1 "count") [])
        (.member (.ofNat 2) (.identifier 1 "trx") [.key "amount"]) := ⟨_, rfl, rfl⟩
  obtain ⟨tree, validated, htree⟩ := hvalidate
  obtain ⟨failure, -, statements⟩ := Engine.failure_of_validate reachable validated later scope
  have hrun : ((takenEngine.valueOf scope tree).run ()).1 =
      .error (.notCallable "feature `trx` can only be called") := by
    subst htree
    rfl
  refine ⟨tree, validated, hrun, failure () _ hrun, ?_⟩
  have hsite : Subtree (.call (.ofNat 102) (.identifier 1 "count") []) tree := by
    subst htree
    exact .child List.mem_cons_self .root
  have answered : (takenEngine.evaluator.gather []).CanEnd (.ok []) := rfl
  exact statements _ _ _ "count" .count compiler statementText [] hsite rfl answered

end Sample

end RuleLang
