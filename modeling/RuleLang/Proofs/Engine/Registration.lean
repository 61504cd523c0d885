import RuleLang.Feature.Transaction

/-!
# Engines keep one feature under a name

An engine looks features up twice, when it validates a tree and when it evaluates one. However it was
built, both look-ups find the same feature.

* `Engine.Reachable`: engines that are built by adding features and setting configurations.
* `Engine.Coherent`: both sides of an engine know the same features.
* `Engine.Reachable.coherent`: every engine that can be built is coherent.
* `Engine.EveryFeature`: a property of all features of an engine, kept feature by feature.
-/

namespace RuleLang

variable {V ω : Type}

/-- A feature that is added is found under its name, and the others are found as before. -/
theorem Optimizer.feature?_addFeature (o : Optimizer V) (name other : String)
    (feature : StaticFeature V) :
    (o.addFeature name feature).feature? other =
      if other = name then some feature else o.feature? other := by
  unfold addFeature feature?
  split
  · rename_i h
    rw [h, Members.find?_insert_self]
  · rename_i h
    rw [Members.find?_insert_of_ne _ _ h]

namespace Engine

/-- Engines that are built from one without features. -/
inductive Reachable : Engine ω → Prop
  | newWith (combinators : Combinators ω RuleError Value) (schema : Schema) :
      Reachable (.newWith combinators schema)
  | withConfig {engine : Engine ω} (config : RuleConfig) (h : Reachable engine) :
      Reachable (engine.withConfig config)
  | addFeature {engine : Engine ω} (name : String) (feature : Feature ω) (h : Reachable engine) :
      Reachable (engine.addFeature name feature)

/-- Validation folds values, and knows of each feature what evaluation calls. -/
structure Coherent (engine : Engine ω) : Prop where
  domain : engine.optimizer.domain = concreteDomain
  feature? : ∀ name,
    engine.optimizer.feature? name = (engine.evaluator.feature? name).map Feature.staticSide

/-- A feature is added under a free name only. -/
theorem feature?_addFeature (engine : Engine ω) (name other : String) (feature : Feature ω) :
    (engine.addFeature name feature).evaluator.feature? other =
      if other = name ∧ engine.evaluator.feature? name = none then some feature
      else engine.evaluator.feature? other := by
  unfold addFeature
  cases hfree : engine.evaluator.feature? name with
  | some taken => simp
  | none =>
      dsimp only [Evaluator.feature?]
      by_cases h : other = name
      · rw [if_pos ⟨h, rfl⟩, h, Members.find?_insert_self]
      · rw [if_neg fun hand => h hand.1, Members.find?_insert_of_ne _ _ h]

/-- An engine without features that evaluates in rounds is built. -/
theorem Reachable.new (schema : Schema) : (Engine.new schema : Engine ω).Reachable :=
  .newWith .rounds schema

/-- Adding a feature keeps both sides in step. -/
theorem Coherent.addFeature {engine : Engine ω} (h : engine.Coherent) (name : String)
    (feature : Feature ω) : (engine.addFeature name feature).Coherent := by
  refine ⟨?_, fun other => ?_⟩
  · unfold Engine.addFeature
    split
    · exact h.domain
    · exact h.domain
  · rw [feature?_addFeature]
    unfold Engine.addFeature
    cases hfree : engine.evaluator.feature? name with
    | some taken => simpa using h.feature? other
    | none =>
        dsimp only
        rw [Optimizer.feature?_addFeature]
        by_cases hother : other = name
        · rw [if_pos hother, if_pos ⟨hother, rfl⟩, Option.map_some]
        · rw [if_neg hother, if_neg fun hand => hother hand.1, h.feature?]

/-- Every engine that can be built is coherent. -/
theorem Reachable.coherent {engine : Engine ω} (h : engine.Reachable) : engine.Coherent := by
  induction h with
  | newWith combinators schema => exact ⟨rfl, fun name => rfl⟩
  | withConfig config h ih => exact ⟨ih.domain, ih.feature?⟩
  | addFeature name feature h ih => exact ih.addFeature name feature

/-- The transaction features are added one by one. -/
theorem Reachable.withTransactionFeatures {engine : Engine ω} (h : engine.Reachable)
    (compiler : Sql.Compiler) (runner : QueryRunner ω) :
    (engine.withTransactionFeatures compiler runner).Reachable :=
  .addFeature _ _ (.addFeature _ _ (.addFeature _ _ (.addFeature _ _ h)))

/-! ### Properties of all features -/

/-- All features of an engine have a property. -/
def EveryFeature (engine : Engine ω) (P : Feature ω → Prop) : Prop :=
  ∀ name feature, engine.evaluator.feature? name = some feature → P feature

/-- An engine without features has no feature that lacks a property. -/
theorem everyFeature_new (schema : Schema) (P : Feature ω → Prop) : (new schema).EveryFeature P :=
  fun name feature h => by cases h

/-- A property of all features is kept when one with the property is added. -/
theorem EveryFeature.addFeature {engine : Engine ω} {P : Feature ω → Prop} (h : engine.EveryFeature P)
    (name : String) {feature : Feature ω} (hfeature : P feature) :
    (engine.addFeature name feature).EveryFeature P := by
  intro other found hfound
  rw [feature?_addFeature] at hfound
  split at hfound
  · cases hfound
    exact hfeature
  · exact h other found hfound

/-- What every transaction feature fulfils is kept when they are added. -/
theorem EveryFeature.addTransactionFeatures {engine : Engine ω} {P : Feature ω → Prop}
    (h : engine.EveryFeature P) {compiler : Sql.Compiler} {runner : QueryRunner ω}
    (classifiers : ∀ classifier : Classifier, P classifier.feature)
    (aggregates : ∀ aggregate : Aggregate, P (aggregate.feature compiler runner)) :
    (engine.withTransactionFeatures compiler runner).EveryFeature P :=
  (((h.addFeature _ (classifiers .credit)).addFeature _ (classifiers .debit)).addFeature _
    (aggregates .count)).addFeature _ (aggregates .sum)

/-- A feature that validation knows is the static side of one that evaluation calls. -/
theorem Coherent.exists_feature {engine : Engine ω} (h : engine.Coherent) {name : String}
    {static : StaticFeature Value} (known : engine.optimizer.feature? name = some static) :
    ∃ feature, engine.evaluator.feature? name = some feature ∧ feature.staticSide = static := by
  rw [h.feature?, Option.map_eq_some_iff] at known
  exact known

end Engine

end RuleLang
