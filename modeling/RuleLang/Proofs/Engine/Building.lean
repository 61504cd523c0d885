import RuleLang.Proofs.Engine.Registration
import RuleLang.Proofs.Evaluation.Answers
import RuleLang.Proofs.Optimizer.Names
import RuleLang.Sample

/-!
# How an engine was built

An engine is built by adding features, one by one or all transaction features at once, and by setting
configurations. Of all that, a rule sees the first feature under each name that it mentions and the last
configuration.

* `Engine.Step`, `Engine.build`: the calls that build an engine, and the engine they build.
* `Engine.firstFeature?`, `Engine.lastConfig`: what counts of the calls.
* `Engine.feature?_build`, `Engine.coherent_build`: what an engine holds after the calls.
* `Engine.evaluate_build_congr`: two engines for which the same counts treat a rule alike.
-/

namespace RuleLang

variable {ω : Type}

/-! ### Evaluation asks for the names of the tree -/

/-- Evaluators that know the same features by the names of a tree evaluate it alike. -/
theorem Evaluator.valueOf_congr {e e' : Evaluator ω} {node : Node} (config : e.config = e'.config)
    (combinators : e.combinators = e'.combinators)
    (h : ∀ name ∈ node.names, e.feature? name = e'.feature? name) (scope : Scope) :
    e.valueOf scope node = e'.valueOf scope node := by
  have hgather : e.gather = e'.gather := by
    funext parts
    rw [gather, gather, config, combinators]
  have hmember : e.memberOf = e'.memberOf := by
    funext object path value
    rw [memberOf, memberOf, config]
  have child {child node : Node} (h : ∀ name ∈ node.names, e.feature? name = e'.feature? name)
      (mem : child ∈ node.children) : ∀ name ∈ child.names, e.feature? name = e'.feature? name :=
    fun name hname => h name (Node.names_subset_of_mem mem hname)
  induction node with
  | literal w value verbatim => rw [valueOf, valueOf]
  | identifier w name =>
      rw [valueOf, valueOf, named, named, h name (List.mem_singleton_self name)]
  | unary w op operand ih => rw [valueOf, valueOf, ih (child h List.mem_cons_self)]
  | binary w op left right ihLeft ihRight =>
      rw [valueOf, valueOf, combinators, ihLeft (child h (by simp [Node.children])),
        ihRight (child h (by simp [Node.children]))]
  | logical w op operands ih =>
      rw [valueOf, valueOf, weighedValuesOf_eq_map, weighedValuesOf_eq_map]
      exact congrArg _ (List.map_congr_left fun n hn => by rw [ih n hn (child h hn)])
  | array w elements ih =>
      rw [valueOf, valueOf, valuesOf_eq_map, valuesOf_eq_map, hgather,
        List.map_congr_left fun n hn => ih n hn (child h hn)]
  | conditional w test consequent alternate ihTest ihConsequent ihAlternate =>
      rw [valueOf, valueOf, ihTest (child h (by simp [Node.children])),
        ihConsequent (child h (by simp [Node.children])),
        ihAlternate (child h (by simp [Node.children]))]
  | sequence w expressions ih =>
      rw [valueOf, valueOf, valuesOf_eq_map, valuesOf_eq_map,
        List.map_congr_left fun n hn => ih n hn (child h hn)]
  | call w callee arguments ihCallee ih =>
      have hcallee : e.callee? callee = e'.callee? callee := by
        unfold callee?
        cases hname : callee.identifier? with
        | none => rfl
        | some name =>
            have mentioned : name ∈ callee.names := Node.mem_names_iff.mpr (.inl hname)
            dsimp only
            rw [h name (Node.names_subset_of_mem List.mem_cons_self mentioned)]
      rw [valueOf, valueOf, hcallee, valuesOf_eq_map, valuesOf_eq_map, hgather,
        List.map_congr_left fun n hn => ih n hn (child h (List.mem_cons_of_mem _ hn))]
  | member w object path ih =>
      rw [valueOf, valueOf, hmember, ih (child h List.mem_cons_self)]

namespace Engine

/-! ### Building -/

/-- A call that builds up an engine. -/
inductive Step (ω : Type) where
  | addFeature (name : String) (feature : Feature ω)
  | withTransactionFeatures (compiler : Sql.Compiler) (runner : QueryRunner ω)
  | withConfig (config : RuleConfig)

/-- What a call makes of an engine. -/
def Step.apply (engine : Engine ω) : Step ω → Engine ω
  | addFeature name feature => engine.addFeature name feature
  | withTransactionFeatures compiler runner => engine.withTransactionFeatures compiler runner
  | withConfig config => engine.withConfig config

/-- The features that a call tries to add, in this order. -/
def Step.registrations : Step ω → List (String × Feature ω)
  | addFeature name feature => [(name, feature)]
  | withTransactionFeatures compiler runner =>
    [("isCredit", Classifier.credit.feature), ("isDebit", Classifier.debit.feature),
      ("count", Aggregate.count.feature compiler runner),
      ("sum", Aggregate.sum.feature compiler runner)]
  | withConfig _ => []

/-- The configuration that a call sets. -/
def Step.config? : Step ω → Option RuleConfig
  | withConfig config => some config
  | _ => none

/-- The engine that is built over a schema by calls, one after the other. -/
def build (combinators : Combinators ω RuleError Value) (schema : Schema) (steps : List (Step ω)) :
    Engine ω :=
  steps.foldl Step.apply (newWith combinators schema)

/-- The first feature that calls try to add under a name. -/
def firstFeature? (steps : List (Step ω)) (name : String) : Option (Feature ω) :=
  Members.find? name (steps.flatMap Step.registrations)

/-- The last configuration that calls set, or else the default. -/
def lastConfig (steps : List (Step ω)) : RuleConfig :=
  (steps.filterMap Step.config?).getLast?.getD .default

/-! ### What an engine holds after some calls -/

/-- The configuration of both sides of an engine. -/
def config (engine : Engine ω) : RuleConfig :=
  ⟨engine.optimizer.config, engine.evaluator.config⟩

/-- Adds features one by one. -/
def addFeatures (engine : Engine ω) (features : List (String × Feature ω)) : Engine ω :=
  features.foldl (fun engine pair => engine.addFeature pair.1 pair.2) engine

variable (engine : Engine ω) (features : List (String × Feature ω)) (step : Step ω)
  (steps : List (Step ω))

/-- A call adds its features, and then sets its configuration, if it has one. -/
theorem apply_eq : step.apply engine =
    (engine.addFeatures step.registrations).withConfig
      (step.config?.getD (engine.addFeatures step.registrations).config) := by
  cases step <;> rfl

/-- An engine is in the configuration that was set. -/
theorem config_withConfig (config : RuleConfig) : (engine.withConfig config).config = config := rfl

/-- Adding a feature leaves the configuration. -/
@[simp] theorem config_addFeature (name : String) (feature : Feature ω) :
    (engine.addFeature name feature).config = engine.config := by
  unfold addFeature
  split <;> rfl

/-- Adding a feature leaves the schema. -/
@[simp] theorem schema_addFeature (name : String) (feature : Feature ω) :
    (engine.addFeature name feature).optimizer.schema = engine.optimizer.schema := by
  unfold addFeature
  split <;> rfl

/-- Adding a feature leaves how parts are evaluated side by side. -/
@[simp] theorem combinators_addFeature (name : String) (feature : Feature ω) :
    (engine.addFeature name feature).evaluator.combinators = engine.evaluator.combinators := by
  unfold addFeature
  split <;> rfl

/-- Adding features leaves the configuration. -/
theorem config_addFeatures : (engine.addFeatures features).config = engine.config := by
  induction features generalizing engine with
  | nil => rfl
  | cons pair rest ih =>
      rw [addFeatures, List.foldl_cons]
      exact (ih _).trans (config_addFeature engine pair.1 pair.2)

/-- Adding features leaves the schema. -/
theorem schema_addFeatures :
    (engine.addFeatures features).optimizer.schema = engine.optimizer.schema := by
  induction features generalizing engine with
  | nil => rfl
  | cons pair rest ih =>
      rw [addFeatures, List.foldl_cons]
      exact (ih _).trans (schema_addFeature engine pair.1 pair.2)

/-- Adding features leaves how parts are evaluated side by side. -/
theorem combinators_addFeatures :
    (engine.addFeatures features).evaluator.combinators = engine.evaluator.combinators := by
  induction features generalizing engine with
  | nil => rfl
  | cons pair rest ih =>
      rw [addFeatures, List.foldl_cons]
      exact (ih _).trans (combinators_addFeature engine pair.1 pair.2)

/-- Adding features to an engine that was built builds an engine. -/
theorem reachable_addFeatures {engine : Engine ω} (h : engine.Reachable) :
    (engine.addFeatures features).Reachable := by
  induction features generalizing engine with
  | nil => exact h
  | cons pair rest ih =>
      rw [addFeatures, List.foldl_cons]
      exact ih (h.addFeature pair.1 pair.2)

/-- Of features that are added one by one, the first of a name is found, where the name was free. -/
theorem feature?_addFeatures (name : String) :
    (engine.addFeatures features).evaluator.feature? name =
      (engine.evaluator.feature? name).or (Members.find? name features) := by
  induction features generalizing engine with
  | nil => exact Option.or_none.symm
  | cons pair rest ih =>
      rw [addFeatures, List.foldl_cons]
      refine (ih _).trans ?_
      rw [feature?_addFeature, Members.find?]
      by_cases hname : name = pair.1
      · subst hname
        cases engine.evaluator.feature? pair.1 with
        | none => simp
        | some taken => simp
      · rw [if_neg fun h => hname h.1, if_neg fun h => hname h.symm]

/-- Among more members, the first of a name is the one that stands first. -/
theorem find?_append {α : Type} (name : String) (members others : List (String × α)) :
    Members.find? name (members ++ others) =
      (Members.find? name members).or (Members.find? name others) := by
  induction members with
  | nil => rfl
  | cons member rest ih =>
      rw [List.cons_append, Members.find?, Members.find?]
      split
      · rfl
      · exact ih

/-- After some calls an engine is in the configuration that was set last. -/
theorem config_foldl : (steps.foldl Step.apply engine).config =
    (steps.filterMap Step.config?).getLast?.getD engine.config := by
  induction steps generalizing engine with
  | nil => rfl
  | cons step rest ih =>
      rw [List.foldl_cons, ih, apply_eq, config_withConfig, config_addFeatures, List.filterMap_cons]
      cases step.config? with
      | none => rfl
      | some set => exact congrArg (Option.getD · engine.config) List.getLast?_cons.symm

/-- Calls leave the schema. -/
theorem schema_foldl :
    (steps.foldl Step.apply engine).optimizer.schema = engine.optimizer.schema := by
  induction steps generalizing engine with
  | nil => rfl
  | cons step rest ih =>
      rw [List.foldl_cons, ih, apply_eq]
      exact schema_addFeatures engine step.registrations

/-- Calls leave how parts are evaluated side by side. -/
theorem combinators_foldl :
    (steps.foldl Step.apply engine).evaluator.combinators = engine.evaluator.combinators := by
  induction steps generalizing engine with
  | nil => rfl
  | cons step rest ih =>
      rw [List.foldl_cons, ih, apply_eq]
      exact combinators_addFeatures engine step.registrations

/-- Calls on an engine that was built build an engine. -/
theorem reachable_foldl {engine : Engine ω} (h : engine.Reachable) :
    (steps.foldl Step.apply engine).Reachable := by
  induction steps generalizing engine with
  | nil => exact h
  | cons step rest ih =>
      rw [List.foldl_cons, apply_eq]
      exact ih (.withConfig _ (reachable_addFeatures step.registrations h))

/-- After some calls an engine holds the feature that it held under a name, or else the first one. -/
theorem feature?_foldl (name : String) : (steps.foldl Step.apply engine).evaluator.feature? name =
    (engine.evaluator.feature? name).or (firstFeature? steps name) := by
  induction steps generalizing engine with
  | nil => exact Option.or_none.symm
  | cons step rest ih =>
      have hstep : (step.apply engine).evaluator.feature? name =
          (engine.evaluator.feature? name).or (Members.find? name step.registrations) := by
        rw [apply_eq]
        exact feature?_addFeatures engine step.registrations name
      rw [List.foldl_cons, ih, hstep, Option.or_assoc, firstFeature?, firstFeature?, List.flatMap_cons,
        find?_append]

/-! ### What counts of the calls -/

variable {combinators : Combinators ω RuleError Value} {schema : Schema} {steps steps' : List (Step ω)}

/-- An engine holds the first feature of each name. -/
theorem feature?_build (name : String) :
    (build combinators schema steps).evaluator.feature? name = firstFeature? steps name :=
  feature?_foldl (newWith combinators schema) steps name

/-- An engine is configured as it was last. -/
theorem config_build : (build combinators schema steps : Engine ω).config = lastConfig steps :=
  config_foldl (newWith combinators schema) steps

/-- An engine evaluates parts side by side as it was told to at first. -/
theorem combinators_build :
    (build combinators schema steps : Engine ω).evaluator.combinators = combinators :=
  combinators_foldl (newWith combinators schema) steps

/-- Both sides of an engine that was built know the same features. -/
theorem coherent_build : (build combinators schema steps : Engine ω).Coherent :=
  (reachable_foldl steps (.newWith combinators schema)).coherent

/-- Engines for which the same counts agree on the names of a tree. -/
theorem agreeOn_build {names : List String}
    (first : ∀ name ∈ names, firstFeature? steps name = firstFeature? steps' name)
    (last : lastConfig steps = lastConfig steps') :
    Optimizer.AgreeOn names (build combinators schema steps).optimizer
      (build combinators schema steps').optimizer := by
  have hconfig : (build combinators schema steps).config = (build combinators schema steps').config := by
    rw [config_build, config_build, last]
  have hschema (steps : List (Step ω)) : (build combinators schema steps).optimizer.schema = schema :=
    schema_foldl (newWith combinators schema) steps
  refine ⟨?_, ?_, congrArg RuleConfig.optimizer hconfig, fun name hname => ?_⟩
  · rw [coherent_build.domain, coherent_build.domain]
  · rw [hschema, hschema]
  · rw [coherent_build.feature?, coherent_build.feature?, feature?_build, feature?_build,
      first name hname]

/-- Two engines over a schema for which the same features come first under the names of a rule, and the
same configuration last, validate the rule alike and evaluate it alike in every scope. -/
theorem evaluate_build_congr {ast : Node}
    (first : ∀ name ∈ ast.names, firstFeature? steps name = firstFeature? steps' name)
    (last : lastConfig steps = lastConfig steps') :
    (build combinators schema steps).validate ast = (build combinators schema steps').validate ast ∧
      ∀ scope, (build combinators schema steps).evaluate scope ast =
        (build combinators schema steps').evaluate scope ast := by
  have hvalidate :
      (build combinators schema steps).validate ast = (build combinators schema steps').validate ast := by
    unfold validate Optimizer.validate Optimizer.compile
    rw [Optimizer.reduceAt_congr (agreeOn_build first last)]
  refine ⟨hvalidate, fun scope => ?_⟩
  unfold evaluate
  rw [← hvalidate]
  cases htree : (build combinators schema steps).validate ast with
  | error e => rfl
  | ok tree =>
      obtain ⟨r, hr, rfl⟩ := map_eq_ok_iff.mp htree
      refine Evaluator.valueOf_congr ?_ ?_ (fun name hname => ?_) scope
      · have hconfig :
            (build combinators schema steps).config = (build combinators schema steps').config := by
          rw [config_build, config_build, last]
        exact congrArg RuleConfig.evaluation hconfig
      · rw [combinators_build, combinators_build]
      · rw [feature?_build, feature?_build, first name (Optimizer.names_subset_of_reduceAt hr hname)]

end Engine

namespace Sample

open Engine (Step)

/-- The transaction features are there before another classifier claims one of their names. -/
def registeredFirst : List (Step Unit) :=
  [.withTransactionFeatures compiler statementText, .addFeature "isCredit" Classifier.debit.feature]

/-- Other features come first, but not under the names of a rule about credits, and the configuration
changes for a while. -/
def registeredLater : List (Step Unit) :=
  [.withConfig ⟨⟨8, false, false⟩, .default⟩, .addFeature "count" Classifier.debit.feature,
    .addFeature "isCredit" Classifier.credit.feature,
    .withTransactionFeatures compiler statementText, .withConfig .default]

/-- Where a credit comes from. -/
def creditOrigin : Node :=
  .conditional 0 (callOf "isCredit" []) (memberOf "trx" "country") (.ofValue .null false)

/-- Both engines see a credit, though they count differently. -/
theorem evaluate_build_creditOrigin :
    (∀ name ∈ creditOrigin.names,
      Engine.firstFeature? registeredFirst name = Engine.firstFeature? registeredLater name) ∧
      Engine.lastConfig registeredFirst = Engine.lastConfig registeredLater ∧
      ((Engine.build .rounds valueSchema registeredFirst).evaluate scope creditOrigin).run () =
        (.ok (.string "RU"), ()) ∧
      ((Engine.build .rounds valueSchema registeredLater).evaluate scope creditOrigin).run () =
        (.ok (.string "RU"), ()) := by
  have hfirst : ∀ name ∈ creditOrigin.names,
      Engine.firstFeature? registeredFirst name = Engine.firstFeature? registeredLater name := by
    intro name hname
    have hnames : name = "isCredit" ∨ name = "trx" := by
      simpa [creditOrigin, callOf, memberOf, Node.ofValue, Node.names, Node.namesOfAll] using hname
    rcases hnames with rfl | rfl
    · rfl
    · rfl
  have hlast : Engine.lastConfig registeredFirst = Engine.lastConfig registeredLater := rfl
  have hrun : ((Engine.build .rounds valueSchema registeredFirst).evaluate scope creditOrigin).run () =
      (.ok (.string "RU"), ()) := rfl
  refine ⟨hfirst, hlast, hrun, ?_⟩
  rw [← (Engine.evaluate_build_congr hfirst hlast).2 scope]
  exact hrun

end Sample

end RuleLang
