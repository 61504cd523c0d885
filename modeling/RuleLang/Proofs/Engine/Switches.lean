import RuleLang.Proofs.Engine.Twins
import RuleLang.Proofs.Optimizer.FixedPoint

/-!
# The switches of validation

Validation may merge chains and drop their constants, or leave them as they are. Either way a chain is as
true as its operands together. Its value is that of one of the operands, and which one it is depends on
what they weigh and on the chains they stand in, so that the value may change with the switches.

A part that takes the place of its chain or conditional is not validated again. To do so would change
nothing as long as the compilers of arguments give a text that they have compiled back as it is.

* `Engine.withSwitches`: an engine with the switches set.
* `Engine.Steady`: trees of which no more is asked than the switches leave as it is.
* `Engine.Twins.agree_of_steady`: what two engines make of a steady tree agrees.
* `Engine.evaluate_withSwitches`: both engines answer, with equal values where the tree is steady.
-/

namespace RuleLang

variable {ω : Type}

namespace Engine

open Optimizer

/-- The same engine with the switches of validation set. -/
def withSwitches (engine : Engine ω) (flattening absorption : Bool) : Engine ω :=
  engine.withConfig
    ⟨⟨engine.optimizer.config.maxDepth, flattening, absorption⟩, engine.evaluator.config⟩

/-- A tree of which no more is asked, its truth value or its value, than two engines agree on. The truth
value of a chain may always be asked for. Its value may be asked for if all operands are booleans, or if
both engines put the operands in the same order and merge none of them. -/
inductive Steady (first second : Engine ω) (scope : Scope) : Bool → Node → Prop
  | same {asked : Bool} {ast tree : Node} (validated : first.validate ast = .ok tree)
      (alike : second.validate ast = .ok tree) : Steady first second scope asked ast
  | literal {asked : Bool} {w : Weight} {value : Value} {verbatim : Bool} :
      Steady first second scope asked (.literal w value verbatim)
  | identifier {asked : Bool} {w : Weight} {name : String} :
      Steady first second scope asked (.identifier w name)
  | unary {asked : Bool} {w : Weight} {op : UnaryOp} {operand : Node}
      (inner : Steady first second scope (op = .not) operand) :
      Steady first second scope asked (.unary w op operand)
  | binary {asked : Bool} {w : Weight} {op : BinaryOp} {left right : Node}
      (onLeft : Steady first second scope false left)
      (onRight : Steady first second scope false right) :
      Steady first second scope asked (.binary w op left right)
  | tested {w : Weight} {op : LogicalOp} {operands : List Node}
      (each : ∀ n ∈ operands, Steady first second scope true n) :
      Steady first second scope true (.logical w op operands)
  | booleans {asked : Bool} {w : Weight} {op : LogicalOp} {operands : List Node}
      (each : ∀ n ∈ operands, Steady first second scope true n)
      (booleans : ∀ n ∈ operands, first.AnswersBoolean scope n ∧ second.AnswersBoolean scope n) :
      Steady first second scope asked (.logical w op operands)
  | ordered {asked : Bool} {w : Weight} {op : LogicalOp} {operands : List Node}
      (each : ∀ n ∈ operands, Steady first second scope false n)
      (plain : ∀ n ∈ operands, first.IsPlain op n ∧ second.IsPlain op n)
      (order : ∀ n ∈ operands, ∀ m ∈ operands,
        (first.weightOf n).toNat ≤ (first.weightOf m).toNat ↔
          (second.weightOf n).toNat ≤ (second.weightOf m).toNat) :
      Steady first second scope asked (.logical w op operands)
  | array {asked : Bool} {w : Weight} {elements : List Node}
      (each : ∀ n ∈ elements, Steady first second scope false n) :
      Steady first second scope asked (.array w elements)
  | conditional {asked : Bool} {w : Weight} {test consequent alternate : Node}
      (onTest : Steady first second scope true test)
      (onConsequent : Steady first second scope asked consequent)
      (onAlternate : Steady first second scope asked alternate) :
      Steady first second scope asked (.conditional w test consequent alternate)
  | sequence {asked : Bool} {w : Weight} {expressions : List Node}
      (last : ∀ n, expressions.getLast? = some n → Steady first second scope asked n) :
      Steady first second scope asked (.sequence w expressions)
  | call {asked : Bool} {w : Weight} {callee : Node} {arguments : List Node}
      (each : ∀ n ∈ arguments, Steady first second scope false n) :
      Steady first second scope asked (.call w callee arguments)
  | compiled {asked : Bool} {w u : Weight} {name : String} {feature : Feature ω}
      {arguments : List Node} (known : first.evaluator.feature? name = some feature)
      (compiled : feature.argumentCompiler?.isSome) :
      Steady first second scope asked (.call w (.identifier u name) arguments)
  | member {asked : Bool} {w : Weight} {object : Node} {path : Path}
      (inner : Steady first second scope false object) :
      Steady first second scope asked (.member w object path)

variable {engine first second : Engine ω} {scope : Scope} {asked : Bool} {level : Nat} {ast : Node}
  {x y : Reduced Value}

/-- What two engines make of a steady tree agrees. -/
theorem Twins.agree_of_steady (twins : Twins first second) (world : ω)
    (steady : Steady first second scope asked ast)
    (names : ∀ name ∈ ast.valueNames, first.evaluator.feature? name = none)
    (hx : first.optimizer.reduceAt level ast = .ok x)
    (hy : second.optimizer.reduceAt level ast = .ok y) : Agree first second scope asked x y := by
  induction steady generalizing level x y with
  | same validated alike => exact twins.agree_of_same world names hx hy validated alike
  | literal =>
      exact ⟨_, _, valued_of_literal (reduceAt_literal_iff.mp hx).2,
        valued_of_literal (reduceAt_literal_iff.mp hy).2, .of_eq rfl⟩
  | @identifier _ w name =>
      have free := names name (by simp [Node.valueNames])
      exact ⟨_, _, twins.coherent.valued_identifier free (reduceAt_identifier_iff.mp hx).2,
        twins.coherent'.valued_identifier (twins.evaluator ▸ free)
          (reduceAt_identifier_iff.mp hy).2, .of_eq rfl⟩
  | unary inner ih =>
      obtain ⟨-, x', hx', hx⟩ := reduceAt_unary_iff.mp hx
      obtain ⟨-, y', hy', hy⟩ := reduceAt_unary_iff.mp hy
      exact twins.agree_unary (ih names hx' hy') hx hy
  | binary onLeft onRight ihLeft ihRight =>
      obtain ⟨-, l, hl, r, hr, hx⟩ := reduceAt_binary_iff.mp hx
      obtain ⟨-, l', hl', r', hr', hy⟩ := reduceAt_binary_iff.mp hy
      rw [Node.valueNames, List.forall_mem_append] at names
      exact twins.agree_binary (ihLeft names.1 hl hl') (ihRight names.2 hr hr') hx hy
  | tested each ih =>
      obtain ⟨-, xs, hxs, hx⟩ := reduceAt_logical_iff.mp hx
      obtain ⟨-, ys, hys, hy⟩ := reduceAt_logical_iff.mp hy
      obtain ⟨vs, ws, hvs, hws, hstands⟩ := exists_agreeing hxs hys fun n hn x y hx hy =>
        ih n hn (Node.forall_valueNames_of_mem names hn) hx hy
      exact twins.agree_logical hvs hws hstands (fun hasked => by cases hasked) hx hy
  | booleans each booleans ih =>
      obtain ⟨-, xs, hxs, hx⟩ := reduceAt_logical_iff.mp hx
      obtain ⟨-, ys, hys, hy⟩ := reduceAt_logical_iff.mp hy
      obtain ⟨vs, ws, hvs, hws, hstands⟩ := exists_agreeing hxs hys fun n hn x y hx hy =>
        ih n hn (Node.forall_valueNames_of_mem names hn) hx hy
      have hfirst := exists_bool_of_answers world hxs hvs fun n hn => (booleans n hn).1
      have hsecond := exists_bool_of_answers world hys hws fun n hn => (booleans n hn).2
      exact twins.agree_logical hvs hws hstands (fun _ => ⟨hfirst, hsecond⟩) hx hy
  | ordered each plain order ih =>
      obtain ⟨-, xs, hxs, hx⟩ := reduceAt_logical_iff.mp hx
      obtain ⟨-, ys, hys, hy⟩ := reduceAt_logical_iff.mp hy
      obtain ⟨vs, ws, hvs, hws, hstands⟩ := exists_agreeing hxs hys fun n hn x y hx hy =>
        ih n hn (Node.forall_valueNames_of_mem names hn) hx hy
      obtain rfl := eq_of_standsFor hstands
      exact twins.agree_of_order world hxs hys hvs hws plain order hx hy
  | array each ih =>
      obtain ⟨-, xs, hxs, hx⟩ := reduceAt_array_iff.mp hx
      obtain ⟨-, ys, hys, hy⟩ := reduceAt_array_iff.mp hy
      obtain ⟨vs, ws, hvs, hws, hstands⟩ := exists_agreeing hxs hys fun n hn x y hx hy =>
        ih n hn (Node.forall_valueNames_of_mem names hn) hx hy
      exact twins.agree_array hvs hws hstands hx hy
  | conditional onTest onConsequent onAlternate ihTest ihConsequent ihAlternate =>
      obtain ⟨-, t, ht, c, hc, a, ha, hx⟩ := reduceAt_conditional_iff.mp hx
      obtain ⟨-, t', ht', c', hc', a', ha', hy⟩ := reduceAt_conditional_iff.mp hy
      rw [Node.valueNames, List.forall_mem_append, List.forall_mem_append] at names
      exact twins.agree_conditional (ihTest names.1.1 ht ht') (ihConsequent names.1.2 hc hc')
        (ihAlternate names.2 ha ha') hx hy
  | sequence last ih =>
      obtain ⟨-, xs, hxs, hx⟩ := reduceAt_sequence_iff.mp hx
      obtain ⟨-, ys, hys, hy⟩ := reduceAt_sequence_iff.mp hy
      obtain ⟨vs, ws, hvs, hws⟩ := twins.exists_all_values scope names hxs hys
      refine agree_sequence world (hxs.length_eq.symm.trans hys.length_eq) hvs hws ?_ hx hy
      intro x y hlast hlast'
      obtain ⟨n, hn, hx⟩ := exists_of_getLast?_forall₂ hxs.flip hlast
      obtain ⟨n', hn', hy⟩ := exists_of_getLast?_forall₂ hys.flip hlast'
      cases hn.symm.trans hn'
      exact ih n hn (Node.forall_valueNames_of_mem names (List.mem_of_getLast? hn)) hx hy
  | call each ih =>
      refine twins.agree_call names hx hy fun w name feature _ _ _ n hn x y hx hy => ?_
      rw [Node.valueNames, List.forall_mem_append] at names
      exact ih n hn (Node.forall_valueNames_of_mem names.2 hn) hx hy
  | @compiled _ _ u name feature arguments known compiled =>
      refine twins.agree_call names hx hy fun w name feature heq hfeature hcompiler => ?_
      cases heq
      cases known.symm.trans hfeature
      rw [hcompiler] at compiled
      cases compiled
  | member inner ih =>
      obtain ⟨-, x', hx', hx⟩ := reduceAt_member_iff.mp hx
      obtain ⟨-, y', hy', hy⟩ := reduceAt_member_iff.mp hy
      exact twins.agree_member (ih names hx' hy') hx hy

/-- Engines with switches evaluate alike. -/
theorem Reachable.twins (reachable : engine.Reachable) (total : engine.EveryFeature Feature.IsTotal)
    (lenient : engine.evaluator.config.strictMembers = false)
    (flattening absorption flattening' absorption' : Bool) :
    Twins (engine.withSwitches flattening absorption) (engine.withSwitches flattening' absorption') where
  coherent := (reachable.withConfig _).coherent
  coherent' := (reachable.withConfig _).coherent
  evaluator := rfl
  total := total
  lenient := lenient

/-- The compilers of arguments stay faithful whatever the switches are. -/
theorem Reachable.compilersFaithful_withSwitches (reachable : engine.Reachable)
    (faithful : engine.EveryFeature Feature.CompilesFaithfully) (flattening absorption : Bool) :
    (engine.withSwitches flattening absorption).optimizer.CompilersFaithful :=
  (reachable.withConfig _).coherent.compilersFaithful faithful

/-- Whatever the switches of validation are, a rule that is validated evaluates to a value, and to validate
the result again changes nothing. With other switches the value is as true if the rule is steady when its
truth value is asked for, and the same if the rule is steady when its value is asked for. -/
theorem evaluate_withSwitches (reachable : engine.Reachable)
    (total : engine.EveryFeature Feature.IsTotal)
    (faithful : engine.EveryFeature Feature.CompilesFaithfully)
    (lenient : engine.evaluator.config.strictMembers = false)
    (names : ∀ name ∈ ast.valueNames, engine.evaluator.feature? name = none)
    {flattening absorption flattening' absorption' : Bool} {tree tree' : Node}
    (h : (engine.withSwitches flattening absorption).validate ast = .ok tree)
    (h' : (engine.withSwitches flattening' absorption').validate ast = .ok tree')
    (scope : Scope) (world again : ω) :
    (engine.withSwitches flattening absorption).validate tree = .ok tree ∧
      (engine.withSwitches flattening' absorption').validate tree' = .ok tree' ∧
      ∃ v w, (((engine.withSwitches flattening absorption).evaluate scope ast).run world).1 = .ok v ∧
        (((engine.withSwitches flattening' absorption').evaluate scope ast).run again).1 = .ok w ∧
        (Steady (engine.withSwitches flattening absorption) (engine.withSwitches flattening' absorption')
          scope true ast → w.isTruthy = v.isTruthy) ∧
        (Steady (engine.withSwitches flattening absorption) (engine.withSwitches flattening' absorption')
          scope false ast → w = v) := by
  have twins := reachable.twins total lenient flattening absorption flattening' absorption'
  rw [evaluate_of_validate h, evaluate_of_validate h']
  obtain ⟨x, hx, rfl⟩ := map_eq_ok_iff.mp h
  obtain ⟨y, hy, rfl⟩ := map_eq_ok_iff.mp h'
  have hsettled := compile_of_compile (reachable.compilersFaithful_withSwitches faithful _ _) hx
  have hsettled' := compile_of_compile (reachable.compilersFaithful_withSwitches faithful _ _) hy
  obtain ⟨v, w, hv, hw⟩ := twins.exists_values scope names hx hy
  have hstands {asked : Bool} (steady : Steady (engine.withSwitches flattening absorption)
      (engine.withSwitches flattening' absorption') scope asked ast) : StandsFor asked v w := by
    obtain ⟨v', w', hv', hw', hstands⟩ := twins.agree_of_steady world steady names hx hy
    rwa [hv'.evaluates.unique hv.evaluates world, hw'.evaluates.unique hw.evaluates world] at hstands
  refine ⟨map_eq_ok_iff.mpr ⟨x, hsettled, rfl⟩, map_eq_ok_iff.mpr ⟨y, hsettled', rfl⟩, v, w,
    hv.evaluates.run world, hw.evaluates.run again, fun steady => (hstands steady).1,
    fun steady => (hstands steady).2 rfl⟩

end Engine

namespace Sample

/-- An engine over the sample schema without features. -/
def valueEngine : Engine Unit :=
  Engine.new valueSchema

/-- The dearest operand of a chain is a chain of cheaper ones. -/
def nestedChain : Node :=
  .logical 0 .and
    [.array 0 [memberOf "trx" "country"],
      .logical 0 .and [memberOf "trx" "currency", .identifier 0 "prohibitedCountries"]]

/-- A test whose chains are merged and lose a constant in front of a chain of booleans. -/
def testedChain : Node :=
  .conditional 0
    (.logical 0 .and
      [callOf "isCredit" [],
        .logical 0 .and [memberOf "trx" "currency", .ofValue (.bool true) false]])
    (memberOf "trx" "country")
    (.logical 0 .or
      [callOf "isCredit" [], .unary 0 .not (memberOf "trx" "country")])

/-- The test is merged and lighter on one of two engines, and the rule has the same value on both. -/
theorem evaluate_withSwitches_testedChain : ∃ tree tree' v,
    (creditEngine.withSwitches false false).validate testedChain = .ok tree ∧
      (creditEngine.withSwitches true true).validate testedChain = .ok tree' ∧
      tree'.weight.toNat < tree.weight.toNat ∧
      (((creditEngine.withSwitches false false).evaluate scope testedChain).run ()).1 = .ok v ∧
      (((creditEngine.withSwitches true true).evaluate scope testedChain).run ()).1 = .ok v := by
  have reachable : creditEngine.Reachable := (Engine.Reachable.new valueSchema).addFeature _ _
  have total : creditEngine.EveryFeature Feature.IsTotal :=
    (Engine.everyFeature_new valueSchema _).addFeature _
      ⟨_, fun _ _ => Computation.answers_pure_iff.mpr rfl⟩
  have faithful : creditEngine.EveryFeature Feature.CompilesFaithfully :=
    (Engine.everyFeature_new valueSchema _).addFeature _ fun compile h => by cases h
  have names : ∀ name ∈ testedChain.valueNames, creditEngine.evaluator.feature? name = none := by
    intro name hname
    have htrx : name ∈ ["trx", "trx", "trx"] := hname
    obtain rfl : name = "trx" := by simpa using htrx
    rfl
  have validated : ∃ tree tree', (creditEngine.withSwitches false false).validate testedChain = .ok tree ∧
      (creditEngine.withSwitches true true).validate testedChain = .ok tree' ∧
        tree'.weight.toNat < tree.weight.toNat := ⟨_, _, rfl, rfl, by decide⟩
  obtain ⟨tree, tree', htree, htree', hlighter⟩ := validated
  obtain ⟨-, -, v, w, hv, hw, -, heq⟩ :=
    Engine.evaluate_withSwitches reachable total faithful rfl names htree htree' scope () ()
  have credit (flattening absorption : Bool) :
      (creditEngine.withSwitches flattening absorption).AnswersBoolean scope (callOf "isCredit" []) :=
    ⟨true, Computation.answers_pure_iff.mpr rfl⟩
  have missing (flattening absorption : Bool) :
      (creditEngine.withSwitches flattening absorption).AnswersBoolean scope
        (.unary 0 .not (memberOf "trx" "country")) :=
    ⟨false, Computation.answers_pure_iff.mpr rfl⟩
  have steady : Engine.Steady (creditEngine.withSwitches false false)
      (creditEngine.withSwitches true true) scope false testedChain := by
    have country {asked : Bool} : Engine.Steady (creditEngine.withSwitches false false)
        (creditEngine.withSwitches true true) scope asked (memberOf "trx" "country") :=
      .member .identifier
    have call {asked : Bool} : Engine.Steady (creditEngine.withSwitches false false)
        (creditEngine.withSwitches true true) scope asked (callOf "isCredit" []) :=
      .call fun n hn => absurd hn List.not_mem_nil
    refine .conditional (.tested ?_) country (.booleans ?_ ?_)
    · refine List.forall_mem_cons.mpr ⟨call, List.forall_mem_singleton.mpr (.tested ?_)⟩
      exact List.forall_mem_cons.mpr ⟨.member .identifier, List.forall_mem_singleton.mpr .literal⟩
    · exact List.forall_mem_cons.mpr ⟨call, List.forall_mem_singleton.mpr (.unary country)⟩
    · exact List.forall_mem_cons.mpr ⟨⟨credit false false, credit true true⟩,
        List.forall_mem_singleton.mpr ⟨missing false false, missing true true⟩⟩
  rw [heq steady] at hw
  exact ⟨tree, tree', v, htree, htree', hlighter, hv, hw⟩

/-- A validated member of the transaction. -/
def weighedMember (key : String) : Node :=
  .member (.ofNat 2) (.identifier (.ofNat 1) "trx") [.key key]

/-- The validated list of countries. -/
def weighedCountries : Node :=
  .identifier (.ofNat 1) "prohibitedCountries"

/-- A chain inside a chain gives the chain its value when it is the dearest operand, and none of its
operands does when they are merged. -/
theorem evaluate_nestedChain :
    valueEngine.Reachable ∧ valueEngine.EveryFeature Feature.IsTotal ∧
      valueEngine.EveryFeature Feature.CompilesFaithfully ∧
      valueEngine.evaluator.config.strictMembers = false ∧
      (∀ name ∈ nestedChain.valueNames, valueEngine.evaluator.feature? name = none) ∧
      ((valueEngine.withSwitches false true).evaluate scope nestedChain).run () =
        (.ok (.string "EUR"), ()) ∧
      ((valueEngine.withSwitches true true).evaluate scope nestedChain).run () =
        (.ok (.array [.string "RU"]), ()) := by
  have apart : (valueEngine.withSwitches false true).validate nestedChain = .ok
      (.logical (.ofNat 8) .and [.array (.ofNat 3) [weighedMember "country"],
        .logical (.ofNat 4) .and [weighedMember "currency", weighedCountries]]) := rfl
  have merged : (valueEngine.withSwitches true true).validate nestedChain = .ok
      (.logical (.ofNat 7) .and [.array (.ofNat 3) [weighedMember "country"],
        weighedMember "currency", weighedCountries]) := rfl
  refine ⟨.new valueSchema, Engine.everyFeature_new valueSchema _, Engine.everyFeature_new valueSchema _,
    rfl, fun name _ => rfl, ?_, ?_⟩
  · have outer (a b : Computation Unit RuleError Value) :
        Evaluator.byWeight [(.ofNat 3, a), (.ofNat 4, b)] = [(.ofNat 3, a), (.ofNat 4, b)] := by
      simp [Evaluator.byWeight, List.mergeSort, weightLimit]
    have inner (a b : Computation Unit RuleError Value) :
        Evaluator.byWeight [(.ofNat 2, a), (.ofNat 1, b)] = [(.ofNat 1, b), (.ofNat 2, a)] := by
      simp [Evaluator.byWeight, List.mergeSort, weightLimit]
    rw [Engine.evaluate_of_validate apart]
    simp only [Evaluator.valueOf, Evaluator.weighedValuesOf, Evaluator.chain, Node.weight, weighedMember,
      weighedCountries, outer, inner]
    rfl
  · have all (a b c : Computation Unit RuleError Value) :
        Evaluator.byWeight [(.ofNat 3, a), (.ofNat 2, b), (.ofNat 1, c)] =
          [(.ofNat 1, c), (.ofNat 2, b), (.ofNat 3, a)] := by
      simp [Evaluator.byWeight, List.mergeSort, weightLimit]
    rw [Engine.evaluate_of_validate merged]
    simp only [Evaluator.valueOf, Evaluator.weighedValuesOf, Evaluator.chain, Node.weight, weighedMember,
      weighedCountries, all]
    rfl

end Sample

end RuleLang
