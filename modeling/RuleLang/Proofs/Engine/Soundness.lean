import RuleLang.Proofs.Engine.Values
import RuleLang.Sample

/-!
# Validation keeps values

A validated tree has the value of the tree that was written, up to the order in which the operands of
chains are evaluated: where a chain is asked for no more than its truth value, validation keeps that.

* `Feature.IsPure`: features whose calls always answer, and that take their arguments as they are.
* `Engine.StandsFor`: values that are as good as each other where only so much is asked.
* `Engine.Coherent.keeps_of_reduceAt`: the value of a tree stands for that of the validated tree.
* `Engine.valueOf_validate`: the value of a rule is kept, or its truth value if it has chains.
-/

namespace RuleLang

variable {ω : Type}

/-- A feature whose calls always answer, with a value that depends on the scope and the arguments only,
and that takes its arguments as they are. -/
structure Feature.IsPure (feature : Feature ω) : Prop where
  answers : ∃ value : Scope → List Value → Value,
    ∀ scope arguments, (feature.call scope arguments).Answers (value scope arguments)
  uncompiled : feature.argumentCompiler? = none

namespace Engine

open Optimizer

variable {engine : Engine ω} {scope : Scope} {x r : Reduced Value} {v : Value} {asked : Bool}

/-! ### Values that stand for others -/

/-- A value that may stand for another one, where that is asked for no more than its truth value or for
its value. -/
def StandsFor (asked : Bool) (v w : Value) : Prop :=
  w.isTruthy = v.isTruthy ∧ (asked = false → w = v)

/-- A value stands for itself. -/
theorem StandsFor.of_eq {v w : Value} (h : w = v) : StandsFor asked v w :=
  ⟨congrArg Value.isTruthy h, fun _ => h⟩

/-- A value that is the same is also as true. -/
theorem StandsFor.weaken {v w : Value} (h : StandsFor false v w) : StandsFor asked v w :=
  .of_eq (h.2 rfl)

/-- An operator in front of a value asks for the value, and `!` for its truth value. -/
theorem StandsFor.apply_unary {op : UnaryOp} {v w : Value} (h : StandsFor (op = .not) v w) :
    op.apply w = op.apply v := by
  by_cases hnot : op = .not
  · rw [hnot, UnaryOp.apply, UnaryOp.apply, h.1]
  · rw [h.2 (decide_eq_false hnot)]

/-- A conditional asks its test for its truth value. -/
theorem StandsFor.ite {t u a b c d : Value} (test : StandsFor true t u) (consequent : StandsFor asked a b)
    (alternate : StandsFor asked c d) :
    StandsFor asked (if t.isTruthy then a else c) (if u.isTruthy then b else d) := by
  rw [test.1]
  split
  · exact consequent
  · exact alternate

/-- Values that are asked for stay the same. -/
theorem eq_of_standsFor {vs ws : List Value} (h : List.Forall₂ (StandsFor false) vs ws) : ws = vs := by
  induction h with
  | nil => rfl
  | cons head tail ih => rw [head.2 rfl, ih]

/-- A chain of values is as true as a chain of values that may stand for them. -/
theorem verdict_eq_of_standsFor {asked : Bool} {op : LogicalOp} {vs ws : List Value}
    (h : List.Forall₂ (StandsFor asked) vs ws) : op.verdict ws = op.verdict vs := by
  induction h with
  | nil => rfl
  | @cons v w vs ws head tail ih =>
      have hsingle : op.verdict [w] = v.isTruthy := by simpa using head.1
      exact LogicalOp.verdict_append_of_eq hsingle ih

/-- The last of some values stands for the last of others. -/
theorem getLast?_standsFor {vs ws : List Value} (h : List.Forall₂ (StandsFor asked) vs ws) :
    StandsFor asked (vs.getLast?.getD .undefined) (ws.getLast?.getD .undefined) := by
  cases hlast : vs.getLast? with
  | none =>
      rw [List.getLast?_eq_none_iff] at hlast
      subst hlast
      cases h
      exact .of_eq rfl
  | some v =>
      obtain ⟨w, hw, hstands⟩ := exists_of_getLast?_forall₂ h hlast
      rw [hw]
      exact hstands

/-! ### Trees -/

/-- A tree has a value, and the validated tree one that may stand for it. -/
def Keeps (engine : Engine ω) (scope : Scope) (asked : Bool) (ast : Node) (r : Reduced Value) : Prop :=
  ∃ v w, engine.evaluator.Evaluates scope ast v ∧ engine.Valued scope r w ∧ StandsFor asked v w

/-- A tree that keeps its value keeps its truth value. -/
theorem Keeps.weaken {ast : Node} (h : engine.Keeps scope false ast r) :
    engine.Keeps scope asked ast r := by
  obtain ⟨v, w, hv, hw, hstands⟩ := h
  exact ⟨v, w, hv, hw, hstands.weaken⟩

/-- The same value before and after validation. -/
theorem keeps_of_valued {ast : Node} (hv : engine.evaluator.Evaluates scope ast v)
    (hw : engine.Valued scope r v) : engine.Keeps scope asked ast r :=
  ⟨v, v, hv, hw, rfl, fun _ => rfl⟩

/-- The values of trees before and after validation, in order. -/
theorem exists_values {nodes : List Node} {xs : List (Reduced Value)}
    (h : List.Forall₂ (engine.Keeps scope asked) nodes xs) :
    ∃ vs ws, List.Forall₂ (engine.evaluator.Evaluates scope) nodes vs ∧
      List.Forall₂ (engine.Valued scope) xs ws ∧ List.Forall₂ (StandsFor asked) vs ws := by
  induction h with
  | nil => exact ⟨[], [], .nil, .nil, .nil⟩
  | cons head tail ih =>
      obtain ⟨v, w, hv, hw, hstands⟩ := head
      obtain ⟨vs, ws, hvs, hws, hrest⟩ := ih
      exact ⟨v :: vs, w :: ws, .cons hv hvs, .cons hw hws, .cons hstands hrest⟩

/-! ### One kind of node after the other -/

variable {w : Weight}

/-- A validated name keeps its value. -/
theorem Coherent.keeps_identifier (coherent : engine.Coherent) {name : String}
    (free : engine.evaluator.feature? name = none) (h : engine.optimizer.identifier name = .ok r) :
    engine.Keeps scope asked (.identifier w name) r :=
  keeps_of_valued (Evaluator.evaluates_identifier free) (coherent.valued_identifier free h)

/-- A validated operator keeps its value; negation asks for no more than the truth of its operand. -/
theorem Coherent.keeps_unary (coherent : engine.Coherent) {op : UnaryOp} {operand : Node}
    (hoperand : engine.Keeps scope (op = .not) operand x) (h : engine.optimizer.unary op x = .ok r) :
    engine.Keeps scope asked (.unary w op operand) r := by
  obtain ⟨v, u, hv, hu, hstands⟩ := hoperand
  have hvalued := coherent.valued_unary hu h
  rw [hstands.apply_unary] at hvalued
  exact keeps_of_valued (Evaluator.evaluates_unary hv) hvalued

/-- A validated operator keeps its value if its operands keep theirs. -/
theorem Coherent.keeps_binary (coherent : engine.Coherent) {op : BinaryOp} {left right : Node}
    {y : Reduced Value} (hleft : engine.Keeps scope false left x)
    (hright : engine.Keeps scope false right y) (h : engine.optimizer.binary op x y = .ok r) :
    engine.Keeps scope asked (.binary w op left right) r := by
  obtain ⟨a, a', ha, ha', -, heq⟩ := hleft
  obtain ⟨b, b', hb, hb', -, heq'⟩ := hright
  rw [heq rfl] at ha'
  rw [heq' rfl] at hb'
  exact keeps_of_valued (Evaluator.evaluates_binary ha hb) (coherent.valued_binary ha' hb' h)

/-- A validated chain is as true as the chain. -/
theorem Coherent.keeps_logical (coherent : engine.Coherent) {op : LogicalOp} {operands : List Node}
    {xs : List (Reduced Value)} (hoperands : List.Forall₂ (engine.Keeps scope true) operands xs)
    (h : engine.optimizer.logical op xs = .ok r) :
    engine.Keeps scope true (.logical w op operands) r := by
  obtain ⟨vs, ws, hvs, hws, hstands⟩ := exists_values hoperands
  obtain ⟨u, hu, htruthy, -⟩ := coherent.exists_of_chainOutcome (logical_eq_ok h) hws
  refine ⟨_, u, Evaluator.evaluates_logical hvs, hu, ?_, fun hasked => by cases hasked⟩
  rw [htruthy, verdict_eq_of_standsFor hstands,
    Evaluator.isTruthy_combine_valuesByWeight op hvs.length_eq]

/-- A validated array keeps its value if its elements keep theirs. -/
theorem Coherent.keeps_array (coherent : engine.Coherent) {weight : Weight} {elements : List Node}
    {xs : List (Reduced Value)} (helements : List.Forall₂ (engine.Keeps scope false) elements xs)
    (h : engine.optimizer.array weight xs = .ok r) :
    engine.Keeps scope asked (.array w elements) r := by
  obtain ⟨vs, ws, hvs, hws, hstands⟩ := exists_values helements
  obtain rfl := eq_of_standsFor hstands
  exact keeps_of_valued (Evaluator.evaluates_array hvs) (coherent.valued_array hws h)

/-- A validated conditional keeps what is asked for if its branches do and its test is as true. -/
theorem Coherent.keeps_conditional (coherent : engine.Coherent) {test consequent alternate : Node}
    {y z : Reduced Value} (htest : engine.Keeps scope true test x)
    (hconsequent : engine.Keeps scope asked consequent y)
    (halternate : engine.Keeps scope asked alternate z)
    (h : engine.optimizer.conditional x y z = .ok r) :
    engine.Keeps scope asked (.conditional w test consequent alternate) r := by
  obtain ⟨t, t', ht, ht', htest⟩ := htest
  obtain ⟨a, a', ha, ha', hyes⟩ := hconsequent
  obtain ⟨b, b', hb, hb', hno⟩ := halternate
  refine ⟨_, _, Evaluator.evaluates_conditional ht ?_, coherent.valued_conditional ht' ha' hb' h,
    htest.ite hyes hno⟩
  split
  · exact ha
  · exact hb

/-- A validated sequence keeps what is asked for if its expressions do. -/
theorem keeps_sequence {expressions : List Node} {xs : List (Reduced Value)}
    (hexpressions : List.Forall₂ (engine.Keeps scope asked) expressions xs)
    (h : engine.optimizer.sequence xs = .ok r) :
    engine.Keeps scope asked (.sequence w expressions) r := by
  obtain ⟨vs, ws, hvs, hws, hstands⟩ := exists_values hexpressions
  exact ⟨_, _, Evaluator.evaluates_sequence hvs, valued_sequence hws h, getLast?_standsFor hstands⟩

/-- A validated call of a pure feature keeps its value if its arguments keep theirs. -/
theorem Coherent.keeps_call (coherent : engine.Coherent) (pure : engine.EveryFeature Feature.IsPure)
    {name : String} {feature : Feature ω} {weight callee : Weight} {arguments : List Node}
    {xs : List (Reduced Value)} (hfeature : engine.evaluator.feature? name = some feature)
    (harguments : List.Forall₂ (engine.Keeps scope false) arguments xs)
    (h : engine.optimizer.call weight feature.staticSide
      ⟨.identifier 1 name, ⟨.one "function", 1, .feature name⟩⟩ xs = .ok r) :
    engine.Keeps scope asked (.call w (.identifier callee name) arguments) r := by
  obtain ⟨⟨value, hanswers⟩, uncompiled⟩ := pure name feature hfeature
  obtain ⟨vs, ws, hvs, hws, hstands⟩ := exists_values harguments
  obtain rfl := eq_of_standsFor hstands
  have hcall := hanswers scope ws
  refine keeps_of_valued (Evaluator.evaluates_call hfeature hvs hcall)
    (coherent.valued_call hfeature hws (fun hsome => ?_) hcall h)
  simp [Feature.staticSide, uncompiled] at hsome

/-- A validated member access keeps its value if its object does. -/
theorem Coherent.keeps_member (coherent : engine.Coherent)
    (lenient : engine.evaluator.config.strictMembers = false) {weight : Weight} {object : Node}
    {path : Path} (hobject : engine.Keeps scope false object x)
    (h : engine.optimizer.member weight x path = .ok r) :
    engine.Keeps scope asked (.member w object path) r := by
  obtain ⟨v, u, hv, hu, -, heq⟩ := hobject
  obtain rfl := heq rfl
  exact keeps_of_valued (Evaluator.evaluates_member path lenient hv)
    (coherent.valued_member lenient hu h)

/-! ### Whole trees -/

/-- Validation keeps the value of a tree, or its truth value where chains stand. -/
theorem Coherent.keeps_of_reduceAt (coherent : engine.Coherent)
    (pure : engine.EveryFeature Feature.IsPure)
    (lenient : engine.evaluator.config.strictMembers = false) {level : Nat} {ast : Node}
    (names : ∀ name ∈ ast.valueNames, engine.evaluator.feature? name = none)
    (chains : ast.chainsInTests asked) (h : engine.optimizer.reduceAt level ast = .ok r) :
    engine.Keeps scope asked ast r := by
  induction ast generalizing asked level r with
  | literal w value verbatim =>
      exact keeps_of_valued (Evaluator.evaluates_literal_iff.mpr rfl)
        (valued_of_literal (reduceAt_literal_iff.mp h).2)
  | identifier w name =>
      exact coherent.keeps_identifier (names name (by simp [Node.valueNames]))
        (reduceAt_identifier_iff.mp h).2
  | unary w op operand ih =>
      obtain ⟨-, x, hx, h⟩ := reduceAt_unary_iff.mp h
      exact coherent.keeps_unary (ih names chains hx) h
  | binary w op left right ihLeft ihRight =>
      obtain ⟨-, x, hx, y, hy, h⟩ := reduceAt_binary_iff.mp h
      rw [Node.valueNames, List.forall_mem_append] at names
      rw [Node.chainsInTests, Bool.and_eq_true] at chains
      exact coherent.keeps_binary (ihLeft names.1 chains.1 hx) (ihRight names.2 chains.2 hy) h
  | logical w op operands ih =>
      obtain ⟨-, xs, hxs, h⟩ := reduceAt_logical_iff.mp h
      rw [Node.chainsInTests, Bool.and_eq_true, Node.allChainsInTests_iff] at chains
      obtain ⟨rfl, chains⟩ := chains
      refine coherent.keeps_logical (forall₂_imp_of_mem hxs fun operand hoperand x hx => ?_) h
      exact ih operand hoperand (Node.forall_valueNames_of_mem names hoperand)
        (chains operand hoperand) hx
  | array w elements ih =>
      obtain ⟨-, xs, hxs, h⟩ := reduceAt_array_iff.mp h
      rw [Node.chainsInTests, Node.allChainsInTests_iff] at chains
      refine coherent.keeps_array (forall₂_imp_of_mem hxs fun element helement x hx => ?_) h
      exact ih element helement (Node.forall_valueNames_of_mem names helement)
        (chains element helement) hx
  | conditional w test consequent alternate ihTest ihConsequent ihAlternate =>
      obtain ⟨-, x, hx, y, hy, z, hz, h⟩ := reduceAt_conditional_iff.mp h
      rw [Node.valueNames, List.forall_mem_append, List.forall_mem_append] at names
      rw [Node.chainsInTests, Bool.and_eq_true, Bool.and_eq_true] at chains
      exact coherent.keeps_conditional (ihTest names.1.1 chains.1.1 hx)
        (ihConsequent names.1.2 chains.1.2 hy) (ihAlternate names.2 chains.2 hz) h
  | sequence w expressions ih =>
      obtain ⟨-, xs, hxs, h⟩ := reduceAt_sequence_iff.mp h
      refine keeps_sequence (forall₂_imp_of_mem hxs fun expression hexpression x hx => ?_) h
      have hnames : ∀ name ∈ expression.valueNames, engine.evaluator.feature? name = none :=
        Node.forall_valueNames_of_mem names hexpression
      rcases Node.chainsInTests_of_mem_last chains hexpression with hasked | hvalue
      · exact ih expression hexpression hnames hasked hx
      · exact (ih expression hexpression hnames hvalue hx).weaken
  | call w callee arguments ihCallee ih =>
      obtain ⟨-, x, hx, static, hstatic, xs, hxs, hcall⟩ := reduceAt_call_iff.mp h
      rw [Node.chainsInTests, Bool.and_eq_true, Node.allChainsInTests_iff] at chains
      rw [Node.valueNames, List.forall_mem_append] at names
      have total : engine.EveryFeature Feature.IsTotal :=
        fun name feature h => (pure name feature h).answers
      obtain ⟨u, name, feature, rfl, hfeature, rfl, rfl⟩ :=
        coherent.exists_callee total lenient names.1 hx hstatic
      have harguments : List.Forall₂ (engine.Keeps scope false) arguments xs := by
        refine forall₂_imp_of_mem hxs ?_
        intro argument hargument y hy
        unfold ArgumentReduces Feature.staticSide at hy
        rw [(pure name feature hfeature).uncompiled] at hy
        exact ih argument hargument (Node.forall_valueNames_of_mem names.2 hargument)
          (chains.2 argument hargument) hy
      exact coherent.keeps_call pure hfeature harguments hcall
  | member w object path ih =>
      obtain ⟨-, x, hx, h⟩ := reduceAt_member_iff.mp h
      exact coherent.keeps_member lenient (ih names chains hx) h

/-- Where a tree evaluates to a value, the validated tree evaluates to one that is as true, and to the
same one if the tree has no chains. -/
theorem valueOf_validate (reachable : engine.Reachable) (pure : engine.EveryFeature Feature.IsPure)
    (lenient : engine.evaluator.config.strictMembers = false) {ast validated : Node}
    (names : ∀ name ∈ ast.valueNames, engine.evaluator.feature? name = none)
    (chains : ast.chainsInTests true) (h : engine.validate ast = .ok validated) {world : ω}
    (hv : ((engine.valueOf scope ast).run world).1 = .ok v) (again : ω) :
    ∃ w, ((engine.valueOf scope validated).run again).1 = .ok w ∧ w.isTruthy = v.isTruthy ∧
      (ast.hasChain = false → w = v) := by
  obtain ⟨r, hr, rfl⟩ := map_eq_ok_iff.mp h
  have hkeeps (asked : Bool) (hasked : ast.chainsInTests asked) : engine.Keeps scope asked ast r :=
    reachable.coherent.keeps_of_reduceAt pure lenient names hasked hr
  have hvalue {asked : Bool} (h : engine.Keeps scope asked ast r) :
      ∃ w, ((engine.valueOf scope r.node).run again).1 = .ok w ∧ StandsFor asked v w := by
    obtain ⟨v', w, hv', hw, hstands⟩ := h
    have hrun := hv'.run world
    unfold valueOf at hv
    rw [hv] at hrun
    cases hrun
    exact ⟨w, hw.evaluates.run again, hstands⟩
  obtain ⟨w, hw, htruthy, -⟩ := hvalue (hkeeps true chains)
  refine ⟨w, hw, htruthy, fun hchain => ?_⟩
  obtain ⟨w', hw', -, heq⟩ := hvalue (hkeeps false (Node.chainsInTests_of_hasChain false hchain))
  rw [hw] at hw'
  cases hw'
  exact heq rfl

end Engine

namespace Sample

/-- An engine over the sample schema with one classifier. -/
def creditEngine : Engine Unit :=
  (Engine.new valueSchema).addFeature "isCredit" Classifier.credit.feature

/-- The country of a credit. -/
def creditCountry : Node :=
  .conditional 0 (.logical 0 .and [callOf "isCredit" [], .ofValue (.bool true) false])
    (memberOf "trx" "country") (.ofValue .null false)

/-- A rule about the country of a credit is as true after it was validated. -/
theorem valueOf_validate_creditCountry : ∃ validated w,
    creditEngine.validate creditCountry = .ok validated ∧
      ((creditEngine.valueOf scope creditCountry).run ()).1 = .ok (.string "RU") ∧
      ((creditEngine.valueOf scope validated).run ()).1 = .ok w ∧ w.isTruthy = true := by
  have reachable : creditEngine.Reachable := (Engine.Reachable.new valueSchema).addFeature _ _
  have pure : creditEngine.EveryFeature Feature.IsPure :=
    (Engine.everyFeature_new valueSchema _).addFeature _
      ⟨⟨_, fun _ _ => Computation.answers_pure_iff.mpr rfl⟩, rfl⟩
  have names : ∀ name ∈ creditCountry.valueNames, creditEngine.evaluator.feature? name = none := by
    intro name hname
    have htrx : name ∈ ["trx"] := hname
    rw [List.mem_singleton.mp htrx]
    rfl
  have hcredit : creditEngine.evaluator.valueOf scope (callOf "isCredit" []) = .pure (.bool true) := rfl
  have hweight : (callOf "isCredit" []).weight = 0 := rfl
  have hweight' : (Node.literal 0 (.bool true) false).weight = 0 := rfl
  have hcountry : creditEngine.evaluator.valueOf scope (memberOf "trx" "country") =
      .pure (.string "RU") := rfl
  have hvalue : ((creditEngine.valueOf scope creditCountry).run ()).1 = .ok (.string "RU") := by
    simp [creditCountry, Engine.valueOf, Evaluator.valueOf, Evaluator.weighedValuesOf, hcredit,
      hcountry, hweight, hweight', Node.ofValue, Evaluator.chain, Evaluator.byWeight, List.mergeSort,
      Evaluator.firstDeciding, Computation.pure, Computation.bind, Computation.run, LogicalOp.decides,
      LogicalOp.neutral, Value.isTruthy]
  have hvalidate : ∃ validated, creditEngine.validate creditCountry = .ok validated := ⟨_, rfl⟩
  obtain ⟨validated, hvalidated⟩ := hvalidate
  obtain ⟨w, hw, htruthy, -⟩ :=
    Engine.valueOf_validate reachable pure rfl names rfl hvalidated hvalue ()
  exact ⟨validated, w, hvalidated, hvalue, hw, htruthy⟩

end Sample

end RuleLang
