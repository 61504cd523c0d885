import RuleLang.Proofs.Engine.Chains
import RuleLang.Proofs.Engine.Soundness
import RuleLang.Proofs.Optimizer.Levels

/-!
# Two engines over the same features

Two engines that know the same features may validate a rule to different trees. The values of these trees
may stand for each other if those of the trees below do, whatever the rule of the node makes of them on
either side. Only a chain takes more: its value depends on the order of its operands.

* `Engine.Twins`: engines that know the same features and evaluate alike.
* `Engine.Agree`: validated trees with values that may stand for each other.
* `Engine.Twins.agree_unary` and the like: nodes agree if the trees below them do.
* `Engine.Twins.agree_of_order`: chains agree if both engines put the operands in the same order.
-/

namespace RuleLang

variable {ω : Type}

namespace Engine

open Optimizer

/-- A rule evaluates to a boolean. -/
def AnswersBoolean (engine : Engine ω) (scope : Scope) (ast : Node) : Prop :=
  ∃ b, (engine.evaluate scope ast).Answers (.bool b)

/-- The weight of a rule when it is validated. -/
def weightOf (engine : Engine ω) (ast : Node) : Weight :=
  match engine.validate ast with
  | .ok tree => tree.weight
  | .error _ => 0

/-- A rule is validated to an operand that a chain neither merges nor hides. -/
def IsPlain (engine : Engine ω) (op : LogicalOp) (ast : Node) : Prop :=
  ∃ tree, engine.validate ast = .ok tree ∧ tree.IsPlain op

/-- Two engines that know the same features and evaluate alike, over features that always answer. -/
structure Twins (first second : Engine ω) : Prop where
  coherent : first.Coherent
  coherent' : second.Coherent
  evaluator : second.evaluator = first.evaluator
  total : first.EveryFeature Feature.IsTotal
  lenient : first.evaluator.config.strictMembers = false

/-- Two validated trees have values that may stand for each other. -/
def Agree (first second : Engine ω) (scope : Scope) (asked : Bool) (x y : Reduced Value) : Prop :=
  ∃ v w, first.Valued scope x v ∧ second.Valued scope y w ∧ StandsFor asked v w

variable {engine first second : Engine ω} {scope : Scope} {asked : Bool} {level : Nat} {ast : Node}
  {x y r s : Reduced Value} {v w : Value} {xs ys : List (Reduced Value)} {vs ws : List Value}

/-! ### Values of validated trees -/

/-- What is validated somewhere below a rule is validated to the same tree as a rule. -/
theorem validate_of_reduceAt (h : engine.optimizer.reduceAt level ast = .ok r) :
    engine.validate ast = .ok r.node := by
  have hroot := reduceAt_of_room (.inl (Nat.zero_le level)) h
  exact map_eq_ok_iff.mpr ⟨r, hroot, rfl⟩

/-- To evaluate a rule is to evaluate what it is validated to. -/
theorem evaluate_of_validate {tree : Node} (h : engine.validate ast = .ok tree) :
    engine.evaluate scope ast = engine.evaluator.valueOf scope tree := by
  rw [evaluate, h]
  rfl

/-- A tree has a boolean as its value if the rule evaluates to one. -/
theorem Valued.exists_bool (h : engine.Valued scope r v) (world : ω)
    (hr : engine.optimizer.reduceAt level ast = .ok r) (boolean : engine.AnswersBoolean scope ast) :
    ∃ b, v = .bool b := by
  obtain ⟨b, hb⟩ := boolean
  rw [evaluate_of_validate (validate_of_reduceAt hr)] at hb
  exact ⟨b, h.evaluates.unique hb world⟩

/-- Trees that evaluate to booleans have booleans as their values. -/
theorem exists_bool_of_answers (world : ω) {nodes : List Node}
    (hxs : List.Forall₂ (fun n x => engine.optimizer.reduceAt level n = .ok x) nodes xs)
    (hvs : List.Forall₂ (engine.Valued scope) xs vs)
    (booleans : ∀ n ∈ nodes, engine.AnswersBoolean scope n) : ∀ v ∈ vs, ∃ b, v = .bool b := by
  intro v hv
  obtain ⟨x, hx, hvalued⟩ := exists_of_mem_forall₂ hvs hv
  obtain ⟨n, hn, hreduce⟩ := exists_of_mem_forall₂ hxs hx
  exact hvalued.exists_bool world hreduce (booleans n hn)

/-- The value of a chain of booleans is a boolean. -/
theorem exists_bool_of_chain {op : LogicalOp} (booleans : ∀ v ∈ vs, ∃ b, v = .bool b)
    (h : v ∈ vs ∨ v = .bool op.neutral) : ∃ b, v = .bool b := by
  rcases h with h | h
  · exact booleans v h
  · exact ⟨op.neutral, h⟩

/-- What both engines validate to the same tree they validate to the same tree at every level. -/
theorem node_eq_of_same {tree : Node} (validated : first.validate ast = .ok tree)
    (alike : second.validate ast = .ok tree) (hx : first.optimizer.reduceAt level ast = .ok x)
    (hy : second.optimizer.reduceAt level ast = .ok y) : x.node = tree ∧ y.node = tree :=
  ⟨Except.ok.inj ((validate_of_reduceAt hx).symm.trans validated),
    Except.ok.inj ((validate_of_reduceAt hy).symm.trans alike)⟩

/-- A rule weighs what its validated tree weighs. -/
theorem weightOf_of_reduceAt (h : engine.optimizer.reduceAt level ast = .ok r) :
    engine.weightOf ast = r.node.weight := by
  rw [weightOf, validate_of_reduceAt h]

/-- What a plain rule is validated to is plain. -/
theorem IsPlain.of_reduceAt {op : LogicalOp} (plain : engine.IsPlain op ast)
    (h : engine.optimizer.reduceAt level ast = .ok r) : r.node.IsPlain op := by
  obtain ⟨tree, validated, htree⟩ := plain
  cases (validate_of_reduceAt h).symm.trans validated
  exact htree

/-- The order of the values of validated trees, by what the rules weigh. -/
theorem valuesByWeight_eq {nodes : List Node}
    (hxs : List.Forall₂ (fun n x => engine.optimizer.reduceAt level n = .ok x) nodes xs)
    (vs : List Value) :
    Evaluator.valuesByWeight (xs.map Reduced.node) vs =
      (Evaluator.byWeight ((nodes.zip vs).map fun z => (engine.weightOf z.1, z.2))).map Prod.snd := by
  have hweights : (xs.map Reduced.node).map Node.weight = nodes.map engine.weightOf := by
    induction hxs with
    | nil => rfl
    | cons hx hxs ih =>
        rw [List.map_cons, List.map_cons, List.map_cons, ih, weightOf_of_reduceAt hx]
  have hpairs : ((xs.map Reduced.node).zip vs).map (fun z => (z.1.weight, z.2)) =
      (nodes.zip vs).map fun z => (engine.weightOf z.1, z.2) :=
    calc ((xs.map Reduced.node).zip vs).map (fun z => (z.1.weight, z.2))
        = ((xs.map Reduced.node).map Node.weight).zip vs := List.zip_map_left.symm
      _ = (nodes.map engine.weightOf).zip vs := by rw [hweights]
      _ = (nodes.zip vs).map fun z => (engine.weightOf z.1, z.2) := List.zip_map_left
  rw [Evaluator.valuesByWeight, hpairs]

/-- Operands that two engines put in the same order come to the same value. -/
theorem combine_eq_of_order {op : LogicalOp} {nodes : List Node}
    (hxs : List.Forall₂ (fun n x => first.optimizer.reduceAt level n = .ok x) nodes xs)
    (hys : List.Forall₂ (fun n y => second.optimizer.reduceAt level n = .ok y) nodes ys)
    (order : ∀ n ∈ nodes, ∀ m ∈ nodes,
      (first.weightOf n).toNat ≤ (first.weightOf m).toNat ↔
        (second.weightOf n).toNat ≤ (second.weightOf m).toNat) (vs : List Value) :
    op.combine (Evaluator.valuesByWeight (xs.map Reduced.node) vs) =
      op.combine (Evaluator.valuesByWeight (ys.map Reduced.node) vs) := by
  rw [valuesByWeight_eq hxs, valuesByWeight_eq hys]
  exact Evaluator.pick_congr id Prod.snd fun a ha b hb =>
    order _ (List.of_mem_zip ha).1 _ (List.of_mem_zip hb).1

namespace Twins

variable (twins : Twins first second)
include twins

/-- A tree evaluates alike on both engines. -/
theorem evaluates_iff {node : Node} :
    second.evaluator.Evaluates scope node v ↔ first.evaluator.Evaluates scope node v := by
  rw [twins.evaluator]

/-- The features of the second engine always answer. -/
theorem total' : second.EveryFeature Feature.IsTotal := by
  unfold EveryFeature
  rw [twins.evaluator]
  exact twins.total

/-- The second engine is not strict about members. -/
theorem lenient' : second.evaluator.config.strictMembers = false := by
  rw [twins.evaluator]
  exact twins.lenient

/-- Both engines give every tree that they validate a value. -/
theorem exists_values (scope : Scope)
    (names : ∀ name ∈ ast.valueNames, first.evaluator.feature? name = none)
    (hx : first.optimizer.reduceAt level ast = .ok x)
    (hy : second.optimizer.reduceAt level ast = .ok y) :
    ∃ v w, first.Valued scope x v ∧ second.Valued scope y w := by
  obtain ⟨v, hv⟩ := twins.coherent.exists_valued scope twins.total twins.lenient names hx
  rw [← twins.evaluator] at names
  obtain ⟨w, hw⟩ := twins.coherent'.exists_valued scope twins.total' twins.lenient' names hy
  exact ⟨v, w, hv, hw⟩

/-- Both engines give all trees that they validate values. -/
theorem exists_all_values (scope : Scope) {nodes : List Node}
    (names : ∀ name ∈ Node.valueNamesOfAll nodes, first.evaluator.feature? name = none)
    (hxs : List.Forall₂ (fun n x => first.optimizer.reduceAt level n = .ok x) nodes xs)
    (hys : List.Forall₂ (fun n y => second.optimizer.reduceAt level n = .ok y) nodes ys) :
    ∃ vs ws, List.Forall₂ (first.Valued scope) xs vs ∧ List.Forall₂ (second.Valued scope) ys ws := by
  obtain ⟨vs, hvs⟩ := twins.coherent.exists_all_valued scope twins.total twins.lenient names hxs
  rw [← twins.evaluator] at names
  obtain ⟨ws, hws⟩ := twins.coherent'.exists_all_valued scope twins.total' twins.lenient' names hys
  exact ⟨vs, ws, hvs, hws⟩

/-- Both engines give the same tree the same value. -/
theorem eq_of_node_eq (world : ω) (hv : first.Valued scope x v) (hw : second.Valued scope y w)
    (h : x.node = y.node) : w = v := by
  have hy := twins.evaluates_iff.mp hw.evaluates
  rw [← h] at hy
  exact hy.unique hv.evaluates world

/-- What both engines validate to the same tree agrees. -/
theorem agree_of_same (world : ω) {tree : Node}
    (names : ∀ name ∈ ast.valueNames, first.evaluator.feature? name = none)
    (hx : first.optimizer.reduceAt level ast = .ok x)
    (hy : second.optimizer.reduceAt level ast = .ok y) (validated : first.validate ast = .ok tree)
    (alike : second.validate ast = .ok tree) : Agree first second scope asked x y := by
  obtain ⟨v, w, hv, hw⟩ := twins.exists_values scope names hx hy
  obtain ⟨hxtree, hytree⟩ := node_eq_of_same validated alike hx hy
  exact ⟨v, w, hv, hw, .of_eq (twins.eq_of_node_eq world hv hw (hxtree.trans hytree.symm))⟩

end Twins

/-! ### Agreement, one kind of node after the other -/

/-- Trees that agree tree by tree have values that may stand for each other. -/
theorem exists_agreeing {R S : Node → Reduced Value → Prop} {nodes : List Node}
    (hxs : List.Forall₂ R nodes xs) (hys : List.Forall₂ S nodes ys)
    (agree : ∀ n ∈ nodes, ∀ x y, R n x → S n y → Agree first second scope asked x y) :
    ∃ vs ws, List.Forall₂ (first.Valued scope) xs vs ∧ List.Forall₂ (second.Valued scope) ys ws ∧
      List.Forall₂ (StandsFor asked) vs ws := by
  induction hxs generalizing ys with
  | nil =>
      cases hys
      exact ⟨[], [], .nil, .nil, .nil⟩
  | cons hx hxs ih =>
      cases hys with
      | cons hy hys =>
          rw [List.forall_mem_cons] at agree
          obtain ⟨v, w, hv, hw, hstands⟩ := agree.1 _ _ hx hy
          obtain ⟨vs, ws, hvs, hws, hrest⟩ := ih hys agree.2
          exact ⟨v :: vs, w :: ws, .cons hv hvs, .cons hw hws, .cons hstands hrest⟩

/-- A sequence asks its last tree for what it is asked for. -/
theorem agree_sequence (world : ω) (hlength : xs.length = ys.length)
    (hvs : List.Forall₂ (first.Valued scope) xs vs) (hws : List.Forall₂ (second.Valued scope) ys ws)
    (last : ∀ x y, xs.getLast? = some x → ys.getLast? = some y →
      Agree first second scope asked x y)
    (hr : first.optimizer.sequence xs = .ok r) (hs : second.optimizer.sequence ys = .ok s) :
    Agree first second scope asked r s := by
  refine ⟨_, _, valued_sequence hvs hr, valued_sequence hws hs, ?_⟩
  cases hx : xs.getLast? with
  | none =>
      rw [List.getLast?_eq_none_iff] at hx
      subst hx
      rw [List.length_nil, eq_comm, List.length_eq_zero_iff] at hlength
      subst hlength
      cases hvs
      cases hws
      exact .of_eq rfl
  | some x =>
      have hne : ys ≠ [] := by
        rintro rfl
        rw [List.length_nil, List.length_eq_zero_iff] at hlength
        rw [hlength] at hx
        cases hx
      have hy := List.getLast?_eq_some_getLast hne
      obtain ⟨v, hv, hvalued⟩ := exists_of_getLast?_forall₂ hvs hx
      obtain ⟨w, hw, hvalued'⟩ := exists_of_getLast?_forall₂ hws hy
      obtain ⟨v', w', hv', hw', hstands⟩ := last _ _ hx hy
      rw [hv, hw, Option.getD_some, Option.getD_some, ← hv'.evaluates.unique hvalued.evaluates world,
        ← hw'.evaluates.unique hvalued'.evaluates world]
      exact hstands

/-- What the engines make of the arguments of a call agrees, if the arguments do or are compiled. -/
theorem exists_arguments (scope : Scope) {static : StaticFeature Value} {arguments : List Node}
    (hxs : List.Forall₂ (first.optimizer.ArgumentReduces static level) arguments xs)
    (hys : List.Forall₂ (second.optimizer.ArgumentReduces static level) arguments ys)
    (agree : static.argumentCompiler? = none → ∀ n ∈ arguments, ∀ x y,
      first.optimizer.reduceAt level n = .ok x → second.optimizer.reduceAt level n = .ok y →
        Agree first second scope false x y) :
    ∃ vs, List.Forall₂ (first.Valued scope) xs vs ∧ List.Forall₂ (second.Valued scope) ys vs := by
  have each (n : Node) (hn : n ∈ arguments) (x y : Reduced Value)
      (hx : first.optimizer.ArgumentReduces static level n x)
      (hy : second.optimizer.ArgumentReduces static level n y) :
      Agree first second scope false x y := by
    unfold ArgumentReduces at hx hy
    cases hcompiler : static.argumentCompiler? with
    | none =>
        rw [hcompiler] at hx hy
        exact agree hcompiler n hn x y hx hy
    | some compile =>
        rw [hcompiler] at hx hy
        obtain ⟨text, hcompile, -⟩ := compiledArgument_eq_ok_iff.mp hx
        exact ⟨_, _, valued_of_compiledArgument hcompile hx, valued_of_compiledArgument hcompile hy,
          .of_eq rfl⟩
  obtain ⟨vs, ws, hvs, hws, hstands⟩ := exists_agreeing hxs hys each
  obtain rfl := eq_of_standsFor hstands
  exact ⟨_, hvs, hws⟩

namespace Twins

variable (twins : Twins first second)
include twins

/-- Operators agree if their operands do; negation asks for no more than their truth. -/
theorem agree_unary {op : UnaryOp} (agree : Agree first second scope (op = .not) x y)
    (hr : first.optimizer.unary op x = .ok r) (hs : second.optimizer.unary op y = .ok s) :
    Agree first second scope asked r s := by
  obtain ⟨v, w, hv, hw, hstands⟩ := agree
  exact ⟨_, _, twins.coherent.valued_unary hv hr, twins.coherent'.valued_unary hw hs,
    .of_eq hstands.apply_unary⟩

/-- Operators agree if both of their operands do. -/
theorem agree_binary {op : BinaryOp} {x' y' : Reduced Value} (left : Agree first second scope false x y)
    (right : Agree first second scope false x' y') (hr : first.optimizer.binary op x x' = .ok r)
    (hs : second.optimizer.binary op y y' = .ok s) : Agree first second scope asked r s := by
  obtain ⟨a, b, ha, hb, -, heq⟩ := left
  obtain ⟨a', b', ha', hb', -, heq'⟩ := right
  obtain rfl := heq rfl
  obtain rfl := heq' rfl
  exact ⟨_, _, twins.coherent.valued_binary ha ha' hr, twins.coherent'.valued_binary hb hb' hs,
    .of_eq rfl⟩

/-- Chains of operands that are as true are as true, and have the same value if they are booleans. -/
theorem agree_logical {op : LogicalOp} (hvs : List.Forall₂ (first.Valued scope) xs vs)
    (hws : List.Forall₂ (second.Valued scope) ys ws) (hstands : List.Forall₂ (StandsFor true) vs ws)
    (booleans : asked = false → (∀ v ∈ vs, ∃ b, v = .bool b) ∧ ∀ w ∈ ws, ∃ b, w = .bool b)
    (hr : first.optimizer.logical op xs = .ok r) (hs : second.optimizer.logical op ys = .ok s) :
    Agree first second scope asked r s := by
  obtain ⟨v, hv, htruthy, hmem⟩ := twins.coherent.exists_of_chainOutcome (logical_eq_ok hr) hvs
  obtain ⟨w, hw, htruthy', hmem'⟩ := twins.coherent'.exists_of_chainOutcome (logical_eq_ok hs) hws
  have hsame : w.isTruthy = v.isTruthy := by
    rw [htruthy, htruthy', verdict_eq_of_standsFor hstands]
  refine ⟨v, w, hv, hw, hsame, fun hasked => ?_⟩
  obtain ⟨hbooleans, hbooleans'⟩ := booleans hasked
  obtain ⟨b, rfl⟩ := exists_bool_of_chain hbooleans hmem
  obtain ⟨c, rfl⟩ := exists_bool_of_chain hbooleans' hmem'
  exact congrArg Value.bool hsame

/-- Chains of plain operands have the same value if both engines put the operands in the same order. -/
theorem agree_of_order (world : ω) {op : LogicalOp} {nodes : List Node}
    (hxs : List.Forall₂ (fun n x => first.optimizer.reduceAt level n = .ok x) nodes xs)
    (hys : List.Forall₂ (fun n y => second.optimizer.reduceAt level n = .ok y) nodes ys)
    (hvs : List.Forall₂ (first.Valued scope) xs vs) (hws : List.Forall₂ (second.Valued scope) ys vs)
    (plain : ∀ n ∈ nodes, first.IsPlain op n ∧ second.IsPlain op n)
    (order : ∀ n ∈ nodes, ∀ m ∈ nodes,
      (first.weightOf n).toNat ≤ (first.weightOf m).toNat ↔
        (second.weightOf n).toNat ≤ (second.weightOf m).toNat)
    (hr : first.optimizer.logical op xs = .ok r) (hs : second.optimizer.logical op ys = .ok s) :
    Agree first second scope asked r s := by
  have hplain : ∀ x ∈ xs, x.node.IsPlain op := fun x hx => by
    obtain ⟨n, hn, hreduce⟩ := exists_of_mem_forall₂ hxs hx
    exact (plain n hn).1.of_reduceAt hreduce
  have hplain' : ∀ y ∈ ys, y.node.IsPlain op := fun y hy => by
    obtain ⟨n, hn, hreduce⟩ := exists_of_mem_forall₂ hys hy
    exact (plain n hn).2.of_reduceAt hreduce
  obtain ⟨v, hv, -⟩ := twins.coherent.exists_of_chainOutcome (logical_eq_ok hr) hvs
  obtain ⟨w, hw, -⟩ := twins.coherent'.exists_of_chainOutcome (logical_eq_ok hs) hws
  have hfirst := hv.evaluates.unique (twins.coherent.evaluates_of_plain hvs hplain hr) world
  have hsecond := hw.evaluates.unique (twins.coherent'.evaluates_of_plain hws hplain' hs) world
  refine ⟨v, w, hv, hw, .of_eq ?_⟩
  rw [hfirst, hsecond, combine_eq_of_order hxs hys order]

/-- Arrays agree if their elements do. -/
theorem agree_array {weight weight' : Weight} (hvs : List.Forall₂ (first.Valued scope) xs vs)
    (hws : List.Forall₂ (second.Valued scope) ys ws) (hstands : List.Forall₂ (StandsFor false) vs ws)
    (hr : first.optimizer.array weight xs = .ok r) (hs : second.optimizer.array weight' ys = .ok s) :
    Agree first second scope asked r s := by
  obtain rfl := eq_of_standsFor hstands
  exact ⟨_, _, twins.coherent.valued_array hvs hr, twins.coherent'.valued_array hws hs, .of_eq rfl⟩

/-- Conditionals agree if their branches do and their tests are as true. -/
theorem agree_conditional {x₂ x₃ y₂ y₃ : Reduced Value} (test : Agree first second scope true x y)
    (consequent : Agree first second scope asked x₂ y₂)
    (alternate : Agree first second scope asked x₃ y₃)
    (hr : first.optimizer.conditional x x₂ x₃ = .ok r)
    (hs : second.optimizer.conditional y y₂ y₃ = .ok s) : Agree first second scope asked r s := by
  obtain ⟨t, u, ht, hu, htest⟩ := test
  obtain ⟨a, b, ha, hb, hyes⟩ := consequent
  obtain ⟨a', b', ha', hb', hno⟩ := alternate
  exact ⟨_, _, twins.coherent.valued_conditional ht ha ha' hr,
    twins.coherent'.valued_conditional hu hb hb' hs, htest.ite hyes hno⟩

/-- A call asks its arguments for their values, unless they are compiled. -/
theorem agree_call {weight : Weight} {callee : Node} {arguments : List Node}
    (names : ∀ name ∈ (Node.call weight callee arguments).valueNames,
      first.evaluator.feature? name = none)
    (hr : first.optimizer.reduceAt level (.call weight callee arguments) = .ok r)
    (hs : second.optimizer.reduceAt level (.call weight callee arguments) = .ok s)
    (agree : ∀ w name feature, callee = .identifier w name →
      first.evaluator.feature? name = some feature → feature.argumentCompiler? = none →
        ∀ n ∈ arguments, ∀ x y, first.optimizer.reduceAt (level + 1) n = .ok x →
          second.optimizer.reduceAt (level + 1) n = .ok y → Agree first second scope false x y) :
    Agree first second scope asked r s := by
  obtain ⟨-, x, hx, static, hstatic, xs, hxs, hr⟩ := reduceAt_call_iff.mp hr
  obtain ⟨-, y, hy, static', hstatic', ys, hys, hs⟩ := reduceAt_call_iff.mp hs
  rw [Node.valueNames, List.forall_mem_append] at names
  obtain ⟨w, name, feature, rfl, hfeature, rfl, rfl⟩ :=
    twins.coherent.exists_callee twins.total twins.lenient names.1 hx hstatic
  obtain ⟨_, name', feature', heq, hfeature', rfl, rfl⟩ :=
    twins.coherent'.exists_callee twins.total' twins.lenient'
      (by rw [twins.evaluator]; exact names.1) hy hstatic'
  cases heq
  cases hfeature.symm.trans (twins.evaluator ▸ hfeature')
  obtain ⟨vs, hvs, hws⟩ := exists_arguments scope hxs hys fun hcompiler n hn x y hx hy =>
    agree w name feature rfl hfeature (by simpa [Feature.staticSide] using hcompiler) n hn x y hx hy
  obtain ⟨value, hanswers⟩ := twins.total name feature hfeature
  refine ⟨_, _, twins.coherent.valued_call hfeature hvs (fun hcompiled x hx => ?_) (hanswers scope vs) hr,
    twins.coherent'.valued_call hfeature' hws (fun hcompiled y hy => ?_) (hanswers scope vs) hs,
    .of_eq rfl⟩
  · obtain ⟨n, -, hreduce⟩ := exists_of_mem_forall₂ hxs hx
    exact (hreduce.settled settled_of_reduceAt).2 hcompiled
  · obtain ⟨n, -, hreduce⟩ := exists_of_mem_forall₂ hys hy
    exact (hreduce.settled settled_of_reduceAt).2 hcompiled

/-- Member accesses agree if their objects do. -/
theorem agree_member {weight weight' : Weight} {path : Path}
    (agree : Agree first second scope false x y)
    (hr : first.optimizer.member weight x path = .ok r)
    (hs : second.optimizer.member weight' y path = .ok s) : Agree first second scope asked r s := by
  obtain ⟨v, w, hv, hw, -, heq⟩ := agree
  obtain rfl := heq rfl
  exact ⟨_, _, twins.coherent.valued_member twins.lenient hv hr,
    twins.coherent'.valued_member twins.lenient' hw hs, .of_eq rfl⟩

end Twins

end Engine

end RuleLang
