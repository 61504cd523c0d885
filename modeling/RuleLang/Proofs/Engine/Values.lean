import RuleLang.Proofs.Engine.Registration
import RuleLang.Proofs.Evaluation.Order
import RuleLang.Proofs.Node.Positions
import RuleLang.Proofs.Optimizer.Settled

/-!
# The values of validated trees

Over features that always answer, every validated tree has a value. It follows from the values of the
trees below the node by the rule that validated the node, whatever that rule made of it.

* `Feature.IsTotal`: features whose calls always answer, with a value that depends on the call only.
* `Engine.Valued`: a validated tree with its value.
* `Engine.Coherent.exists_of_chainOutcome`: what becomes of a chain is as true as its operands together,
  and has the value of one of them.
* `Engine.Coherent.valued_unary` and the like: the value of what a rule answers.
* `Engine.Coherent.exists_valued`: validated trees have values.
-/

namespace RuleLang

variable {ω : Type}

/-- A feature whose calls always answer, with a value that depends on the scope and the arguments only. -/
def Feature.IsTotal (feature : Feature ω) : Prop :=
  ∃ value : Scope → List Value → Value,
    ∀ scope arguments, (feature.call scope arguments).Answers (value scope arguments)

namespace Engine

open Optimizer

variable {engine : Engine ω} {scope : Scope}

/-- A validated tree with its value: the tree evaluates to it, and the operands that it contributes to a
chain around it come to it. -/
structure Valued (engine : Engine ω) (scope : Scope) (x : Reduced Value) (v : Value) : Prop where
  settled : engine.optimizer.Settled x
  evaluates : engine.evaluator.Evaluates scope x.node v
  parts : ∀ op, ∃ us,
    List.Forall₂ (engine.evaluator.Evaluates scope) (engine.optimizer.flatten op x.node) us ∧
      op.combine (Evaluator.valuesByWeight (engine.optimizer.flatten op x.node) us) = v
  value : ∀ name, x.result.origin ≠ .feature name

variable {x r : Reduced Value} {v : Value}

/-- A tree that is no chain contributes itself to a chain around it. -/
theorem Valued.of_not_chain (settled : engine.optimizer.Settled x)
    (evaluates : engine.evaluator.Evaluates scope x.node v) (hchain : ∀ op, ¬ x.node.isChainOf op)
    (value : ∀ name, x.result.origin ≠ .feature name) : engine.Valued scope x v := by
  refine ⟨settled, evaluates, fun op => ⟨[v], ?_, ?_⟩, value⟩
  all_goals rw [flatten_of_not fun h => hchain op h.2]
  · exact .cons evaluates .nil
  · exact Evaluator.combine_valuesByWeight_singleton

/-- The trees of validated trees with values are settled. -/
theorem settled_of_forall₂ {xs : List (Reduced Value)} {vs : List Value}
    (h : List.Forall₂ (engine.Valued scope) xs vs) : ∀ x ∈ xs, engine.optimizer.Settled x := by
  intro x hx
  obtain ⟨v, -, hv⟩ := exists_of_mem_forall₂ h.flip hx
  exact hv.settled

/-- Validated trees evaluate as they are. -/
theorem forall₂_evaluates {xs : List (Reduced Value)} {vs : List Value}
    (h : List.Forall₂ (engine.Valued scope) xs vs) :
    List.Forall₂ (engine.evaluator.Evaluates scope) (xs.map Reduced.node) vs := by
  rw [List.forall₂_map_left_iff]
  exact h.imp fun x v hx => hx.evaluates

/-! ### Constants -/

/-- A literal has the value that it stores. -/
theorem valued_of_literal {value : Value} {verbatim : Bool}
    (h : engine.optimizer.literal value verbatim = .ok r) : engine.Valued scope r value := by
  have settled := settled_of_literal h
  obtain ⟨rendered, -, rfl⟩ := literal_eq_ok_iff.mp h
  refine .of_not_chain settled (Evaluator.evaluates_literal_iff.mpr rfl) (fun op => ?_) (fun name => ?_)
  · simp [Node.ofValue, Node.isChainOf]
  · simp [Reduction.ofLiteral]

/-- What folds has the value that it folds to. -/
theorem Coherent.valued_of_fold (coherent : engine.Coherent) {value : Value}
    (h : engine.optimizer.fold value = .ok r) : engine.Valued scope r value := by
  unfold fold at h
  rw [coherent.domain] at h
  exact valued_of_literal h

/-- The value of a transparent literal is its constant. -/
theorem Valued.eq_of_constant? (h : engine.Valued scope x v) {value : Value}
    (hconstant : x.node.constant? = some value) : value = v := by
  have hevaluates := h.evaluates
  unfold Node.constant? at hconstant
  split at hconstant
  · rename_i w value' hnode
    cases hconstant
    rw [hnode] at hevaluates
    exact Evaluator.evaluates_literal_iff.mp hevaluates
  · cases hconstant

/-- The value of a literal is what validation knows of it. -/
theorem Coherent.eq_of_literal? (coherent : engine.Coherent) (h : engine.Valued scope x v)
    {value : Value}
    (hliteral : x.result.literal? = some value) : value = v := by
  cases h.settled with
  | constant constant =>
      obtain ⟨stored, verbatim, rendered, hrendered, rfl⟩ := constant
      rw [coherent.domain] at hrendered
      cases hrendered
      cases hliteral
      exact Evaluator.evaluates_literal_iff.mp h.evaluates
  | _ => cases hliteral

/-- What is known of a literal is its value. -/
theorem Coherent.literal?_eq (coherent : engine.Coherent) (h : engine.Valued scope x v)
    (hliteral : x.node.isLiteral) : x.result.literal? = some v := by
  obtain ⟨value, hvalue⟩ := Option.isSome_iff_exists.mp (h.settled.isLiteral_iff.mp hliteral)
  rw [hvalue, coherent.eq_of_literal? h hvalue]

/-- The constants of literals are their values. -/
theorem Coherent.constants_eq (coherent : engine.Coherent) {xs : List (Reduced Value)} {vs : List Value}
    (h : List.Forall₂ (engine.Valued scope) xs vs) (hliteral : ∀ x ∈ xs, x.node.isLiteral) :
    constants xs = vs := by
  induction h with
  | nil => rfl
  | cons head tail ih =>
      rw [List.forall_mem_cons] at hliteral
      have hhead := coherent.literal?_eq head hliteral.1
      rw [constants, List.filterMap_cons, hhead, ← ih hliteral.2]
      rfl

/-! ### Chains -/

/-- A constant that does not decide a chain is neutral in it. -/
theorem Valued.isTruthy_of_isAbsorbed {op : LogicalOp} (h : engine.Valued scope x v)
    (absorbed : engine.optimizer.isAbsorbed x) (undecided : ¬ engine.optimizer.isDecisive op x) :
    v.isTruthy = op.neutral := by
  unfold isAbsorbed at absorbed
  rw [Bool.and_eq_true] at absorbed
  obtain ⟨value, hvalue⟩ := Option.isSome_iff_exists.mp absorbed.2
  have heq := h.eq_of_constant? hvalue
  subst heq
  simpa [isDecisive, absorbed.1, hvalue, LogicalOp.decides] using undecided

/-- Absorption leaves the truth value of a chain as it is. -/
theorem exists_remaining {op : LogicalOp} {xs : List (Reduced Value)} {vs : List Value}
    (h : List.Forall₂ (engine.Valued scope) xs vs)
    (undecided : ∀ x ∈ xs, ¬ engine.optimizer.isDecisive op x) :
    ∃ us, List.Forall₂ (engine.Valued scope) (engine.optimizer.remaining xs) us ∧
      op.verdict us = op.verdict vs ∧ us ⊆ vs := by
  induction h with
  | nil => exact ⟨[], .nil, rfl, List.Subset.refl _⟩
  | @cons x v xs vs head tail ih =>
      rw [List.forall_mem_cons] at undecided
      obtain ⟨us, hus, hverdict, hsubset⟩ := ih undecided.2
      unfold remaining at hus ⊢
      rw [List.filter_cons]
      split
      · exact ⟨v :: us, .cons head hus, LogicalOp.verdict_cons_congr hverdict,
          List.cons_subset_cons v hsubset⟩
      · rename_i habsorbed
        have hneutral := head.isTruthy_of_isAbsorbed (by simpa using habsorbed) undecided.1
        exact ⟨us, hus, hverdict.trans (LogicalOp.verdict_cons_of_neutral hneutral).symm,
          List.subset_cons_of_subset v hsubset⟩

/-- Merging the chains inside a chain leaves its truth value as it is, and the value is still that of one
of its operands. -/
theorem exists_merged (op : LogicalOp) {xs : List (Reduced Value)} {vs : List Value}
    (h : List.Forall₂ (engine.Valued scope) xs vs) :
    ∃ us, List.Forall₂ (engine.evaluator.Evaluates scope)
        (xs.flatMap fun x => engine.optimizer.flatten op x.node) us ∧
      op.verdict us = op.verdict vs ∧
      (xs ≠ [] → op.combine (Evaluator.valuesByWeight
        (xs.flatMap fun x => engine.optimizer.flatten op x.node) us) ∈ vs) := by
  induction h with
  | nil => exact ⟨[], .nil, rfl, fun hne => absurd rfl hne⟩
  | @cons x v xs vs head tail ih =>
      obtain ⟨front, hfront, hhead⟩ := head.parts op
      obtain ⟨back, hback, htail, hvalue⟩ := ih
      have hverdict : op.verdict front = v.isTruthy := by
        rw [← hhead, Evaluator.isTruthy_combine_valuesByWeight op hfront.length_eq]
      rw [List.flatMap_cons]
      refine ⟨front ++ back, List.rel_append hfront hback,
        LogicalOp.verdict_append_of_eq hverdict htail, fun _ => ?_⟩
      rcases Evaluator.combine_valuesByWeight_append op hfront.length_eq with heq | heq
      · rw [heq, hhead]
        exact List.mem_cons_self
      · cases tail with
        | nil =>
            cases hback
            rw [List.flatMap_nil, List.append_nil, List.append_nil, hhead]
            exact List.mem_cons_self
        | cons _ _ =>
            rw [heq]
            exact List.mem_cons_of_mem v (hvalue (List.cons_ne_nil _ _))

/-- What a chain becomes is as true as all its operands together, and has the value of one of them, or is
the neutral truth value. -/
theorem Coherent.exists_of_chainOutcome (coherent : engine.Coherent) {op : LogicalOp}
    {xs : List (Reduced Value)} {vs : List Value} (h : ChainOutcome engine.optimizer op xs r)
    (hxs : List.Forall₂ (engine.Valued scope) xs vs) :
    ∃ v, engine.Valued scope r v ∧ v.isTruthy = op.verdict vs ∧ (v ∈ vs ∨ v = .bool op.neutral) := by
  have settled : engine.optimizer.Settled r := h.settled (settled_of_forall₂ hxs)
  cases h with
  | folded constant fold =>
      have hliteral := fun x hx => Node.isLiteral_of_constant? (constant x hx)
      rw [coherent.constants_eq hxs hliteral, coherent.domain] at fold
      exact ⟨_, coherent.valued_of_fold fold, LogicalOp.isTruthy_combine,
        LogicalOp.combine_mem_or_eq_neutral⟩
  | decided mem decisive =>
      obtain ⟨v, hv, hvalued⟩ := exists_of_mem_forall₂ hxs.flip mem
      refine ⟨v, hvalued, (LogicalOp.verdict_of_decides hv ?_).symm, .inl hv⟩
      unfold isDecisive at decisive
      rw [Bool.and_eq_true, Option.any_eq_true] at decisive
      obtain ⟨-, value, hvalue, hdecides⟩ := decisive
      rwa [hvalued.eq_of_constant? hvalue] at hdecides
  | neutral undecided absorbed literal =>
      obtain ⟨us, hus, hverdict, -⟩ := exists_remaining hxs undecided
      rw [absorbed, List.forall₂_nil_left_iff] at hus
      subst hus
      exact ⟨_, valued_of_literal literal, hverdict, .inr rfl⟩
  | single undecided remaining =>
      obtain ⟨us, hus, hverdict, hsubset⟩ := exists_remaining hxs undecided
      rw [remaining] at hus
      cases hus with
      | cons head tail =>
          cases tail
          exact ⟨_, head, by rw [← hverdict, LogicalOp.verdict_singleton],
            .inl (hsubset List.mem_cons_self)⟩
  | rendered undecided two literals fold =>
      obtain ⟨us, hus, hverdict, hsubset⟩ := exists_remaining hxs undecided
      rw [coherent.constants_eq hus literals, coherent.domain] at fold
      exact ⟨_, coherent.valued_of_fold fold, LogicalOp.isTruthy_combine.trans hverdict,
        LogicalOp.combine_mem_or_eq_neutral.imp_left fun hmem => hsubset hmem⟩
  | merged nodes undecided two notLiterals merge =>
      obtain ⟨us, hus, hverdict, hsubset⟩ := exists_remaining hxs undecided
      obtain ⟨parts, hparts, hmerged, hvalue⟩ := exists_merged op hus
      rw [← merge] at hparts hvalue
      have hne : engine.optimizer.remaining xs ≠ [] := List.ne_nil_of_length_pos (by omega)
      have htruthy := Evaluator.isTruthy_combine_valuesByWeight op hparts.length_eq
      refine ⟨_, ⟨settled, Evaluator.evaluates_logical hparts, fun outer => ?_, fun name => ?_⟩,
        htruthy.trans (hmerged.trans hverdict), .inl (hsubset (hvalue hne))⟩
      · by_cases hmerge : engine.optimizer.config.flattening ∧ op = outer
        · obtain ⟨hflattening, rfl⟩ := hmerge
          exact ⟨parts, by simpa [flatten, hflattening] using hparts, by simp [flatten, hflattening]⟩
        · rw [flatten_of_not (by simpa [Node.isChainOf] using hmerge)]
          exact ⟨_, .cons (Evaluator.evaluates_logical hparts) .nil,
            Evaluator.combine_valuesByWeight_singleton⟩
      · simp [Reduction.ofComputed]

/-! ### One kind of node after the other -/

/-- A validated name has the value that the scope binds to it. -/
theorem Coherent.valued_identifier (coherent : engine.Coherent) {name : String}
    (free : engine.evaluator.feature? name = none) (h : engine.optimizer.identifier name = .ok r) :
    engine.Valued scope r ((scope.get? name).getD .undefined) := by
  rcases identifier_eq_ok h with
    ⟨feature, known, -⟩ | ⟨shape, hfree, declared, ⟨value, hsplice, -⟩ | ⟨unspliced, rfl⟩⟩
  · rw [coherent.feature?, free] at known
    cases known
  · rw [coherent.domain] at hsplice
    cases hsplice
  · refine .of_not_chain (.entry hfree declared unspliced) (Evaluator.evaluates_identifier free) ?_ ?_
    · simp [Node.isChainOf]
    · simp

/-- A validated operator has its value at that of the operand. -/
theorem Coherent.valued_unary (coherent : engine.Coherent) {op : UnaryOp} (hx : engine.Valued scope x v)
    (h : engine.optimizer.unary op x = .ok r) : engine.Valued scope r (op.apply v) := by
  rcases unary_eq_ok h with ⟨value, hliteral, hfold⟩ | ⟨unknown, rfl⟩
  · rw [coherent.eq_of_literal? hx hliteral, coherent.domain] at hfold
    exact coherent.valued_of_fold hfold
  · refine .of_not_chain (.unary hx.settled unknown) (Evaluator.evaluates_unary hx.evaluates) ?_ ?_
    · simp [Node.isChainOf]
    · simp [Reduction.ofComputed]

/-- A validated operator has its value at those of both operands. -/
theorem Coherent.valued_binary (coherent : engine.Coherent) {op : BinaryOp} {y : Reduced Value}
    {a b : Value} (hx : engine.Valued scope x a) (hy : engine.Valued scope y b)
    (h : engine.optimizer.binary op x y = .ok r) : engine.Valued scope r (op.apply a b) := by
  rcases binary_eq_ok h with ⟨c, d, value, hc, hd, hvalue, hfold⟩ | ⟨unknown, rfl⟩
  · rw [coherent.eq_of_literal? hx hc, coherent.eq_of_literal? hy hd, coherent.domain] at hvalue
    cases hvalue
    exact coherent.valued_of_fold hfold
  · refine .of_not_chain (.binary hx.settled hy.settled unknown)
      (Evaluator.evaluates_binary hx.evaluates hy.evaluates) ?_ ?_
    · simp [Node.isChainOf]
    · simp [Reduction.ofComputed]

/-- The constants of transparent literals are their values. -/
theorem filterMap_constant?_eq {xs : List (Reduced Value)} {vs : List Value}
    (h : List.Forall₂ (engine.Valued scope) xs vs) (hconstant : ∀ x ∈ xs, x.node.constant?.isSome) :
    (xs.map Reduced.node).filterMap Node.constant? = vs := by
  induction h with
  | nil => rfl
  | cons head tail ih =>
      rw [List.forall_mem_cons] at hconstant
      obtain ⟨value, hvalue⟩ := Option.isSome_iff_exists.mp hconstant.1
      rw [List.map_cons, List.filterMap_cons, hvalue, head.eq_of_constant? hvalue, ih hconstant.2]

/-- The constants of literals that stand in an array are their values. -/
theorem Coherent.mapM_element_eq (coherent : engine.Coherent) {xs : List (Reduced Value)}
    {vs values : List Value} (h : List.Forall₂ (engine.Valued scope) xs vs)
    (helements : (xs.map Reduced.node).mapM engine.optimizer.element = .ok values) : values = vs := by
  rw [mapM_eq_ok_iff, List.forall₂_map_left_iff] at helements
  induction h generalizing values with
  | nil =>
      cases helements
      rfl
  | @cons x v xs vs head tail ih =>
      cases helements with
      | @cons _ value _ rest hvalue hrest =>
          have hevaluates := head.evaluates
          unfold element Node.literal? at hvalue
          rw [coherent.domain] at hvalue
          split at hvalue
          · rename_i stored verbatim hnode
            split at hnode
            · rename_i w value' verbatim' hx
              cases hnode
              cases hvalue
              rw [hx] at hevaluates
              rw [Evaluator.evaluates_literal_iff.mp hevaluates, ih hrest]
            · cases hnode
          · cases hvalue

/-- A validated array has the array of the values of its elements as its value. -/
theorem Coherent.valued_array (coherent : engine.Coherent) {weight : Weight}
    {xs : List (Reduced Value)} {vs : List Value} (hxs : List.Forall₂ (engine.Valued scope) xs vs)
    (h : engine.optimizer.array weight xs = .ok r) : engine.Valued scope r (.array vs) := by
  rcases array_eq_ok h with ⟨hconstant, hliteral⟩ | ⟨values, -, hvalues, hfold⟩ | ⟨notLiterals, rfl⟩
  · rw [filterMap_constant?_eq hxs hconstant] at hliteral
    exact valued_of_literal hliteral
  · rw [coherent.mapM_element_eq hxs hvalues, coherent.domain] at hfold
    exact coherent.valued_of_fold hfold
  · refine .of_not_chain (.array (settled_of_forall₂ hxs) notLiterals)
      (Evaluator.evaluates_array (forall₂_evaluates hxs)) ?_ ?_
    · simp [Node.isChainOf]
    · simp [Reduction.ofComputed]

/-- A validated conditional has the value of the branch that its test selects. -/
theorem Coherent.valued_conditional (coherent : engine.Coherent) {y z : Reduced Value} {t a b : Value}
    (hx : engine.Valued scope x t) (hy : engine.Valued scope y a) (hz : engine.Valued scope z b)
    (h : engine.optimizer.conditional x y z = .ok r) :
    engine.Valued scope r (if t.isTruthy then a else b) := by
  rcases conditional_eq_ok h with
    ⟨value, hconstant, rfl⟩ | ⟨test, yes, no, -, htest, hyes, hno, hfold⟩ | ⟨unselected, unknown, rfl⟩
  · rw [hx.eq_of_constant? hconstant]
    split
    · exact hy
    · exact hz
  · rw [coherent.eq_of_literal? hx htest, coherent.eq_of_literal? hy hyes,
      coherent.eq_of_literal? hz hno, coherent.domain] at hfold
    exact coherent.valued_of_fold hfold
  · refine .of_not_chain (.conditional hx.settled hy.settled hz.settled unselected unknown)
      (Evaluator.evaluates_conditional hx.evaluates ?_) ?_ ?_
    · split
      · exact hy.evaluates
      · exact hz.evaluates
    · simp [Node.isChainOf]
    · simp [Reduction.ofComputed]

/-- A validated sequence has the value of its last expression. -/
theorem valued_sequence {xs : List (Reduced Value)} {vs : List Value}
    (hxs : List.Forall₂ (engine.Valued scope) xs vs) (h : engine.optimizer.sequence xs = .ok r) :
    engine.Valued scope r (vs.getLast?.getD .undefined) := by
  rcases sequence_eq_ok h with ⟨rfl, hliteral⟩ | ⟨hlast, -⟩ | ⟨last, ends, unknown, rfl⟩
  · cases hxs
    exact valued_of_literal hliteral
  · obtain ⟨v, hv, hvalued⟩ := exists_of_getLast?_forall₂ hxs hlast
    rwa [hv]
  · refine .of_not_chain (.sequence (settled_of_forall₂ hxs) ends unknown)
      (Evaluator.evaluates_sequence (forall₂_evaluates hxs)) ?_ ?_
    · simp [Node.isChainOf]
    · simp [Reduction.ofComputed]

/-- A feature that is evaluated is not folded. -/
theorem value?_of_describe {feature : Feature ω} {results : List (Reduction Value)}
    {description : Description Value} (h : feature.staticSide.describe results = .ok description) :
    description.value? = none := by
  unfold Feature.staticSide at h
  obtain ⟨described, -, rfl⟩ := map_eq_ok_iff.mp h
  rfl

/-- A call has the value that the feature answers with for the values of the validated arguments. -/
theorem Coherent.valued_call (coherent : engine.Coherent) {name : String} {feature : Feature ω}
    (hfeature : engine.evaluator.feature? name = some feature) {weight : Weight}
    {xs : List (Reduced Value)} {vs : List Value} (hxs : List.Forall₂ (engine.Valued scope) xs vs)
    (compiled : feature.staticSide.argumentCompiler?.isSome →
      ∀ x ∈ xs, ∃ text, x.node = .ofValue (.string text) true)
    (hanswers : (feature.call scope vs).Answers v)
    (h : engine.optimizer.call weight feature.staticSide
      ⟨.identifier 1 name, ⟨.one "function", 1, .feature name⟩⟩ xs = .ok r) :
    engine.Valued scope r v := by
  have known : engine.optimizer.feature? name = some feature.staticSide := by
    rw [coherent.feature?, hfeature, Option.map_some]
  obtain ⟨description, described, ⟨folded, hfolded, -⟩ | ⟨unknown, rfl⟩⟩ := call_eq_ok h
  · rw [value?_of_describe described] at hfolded
    cases hfolded
  · refine .of_not_chain (.call known (settled_of_forall₂ hxs) compiled described unknown)
      (Evaluator.evaluates_call hfeature (forall₂_evaluates hxs) hanswers) ?_ ?_
    · simp [Node.isChainOf]
    · simp [Reduction.ofComputed]

/-- A validated member access has the member of its object as its value. -/
theorem Coherent.valued_member (coherent : engine.Coherent)
    (lenient : engine.evaluator.config.strictMembers = false) {weight : Weight} {path : Path}
    (hx : engine.Valued scope x v) (h : engine.optimizer.member weight x path = .ok r) :
    engine.Valued scope r ((v.getPath? path).getD .undefined) := by
  have hmember (w : Weight) := Evaluator.evaluates_member (w := w) path lenient hx.evaluates
  rcases member_eq_ok h with ⟨value, found, hvalue, hfound, hliteral⟩ |
    ⟨shape, found, unknown, declared, leads, ⟨value, hsplice, -⟩ | ⟨unspliced, rfl⟩⟩ |
    ⟨unknown, undeclared, noFeature, rfl⟩
  · have hconstant : x.node.constant? = some value := by
      unfold Node.literal? at hvalue
      unfold Node.constant?
      split at hvalue
      · rename_i hnode
        cases hvalue
        rw [hnode]
      · cases hvalue
    obtain rfl := hx.eq_of_constant? hconstant
    rw [hfound]
    exact valued_of_literal hliteral
  · rw [coherent.domain] at hsplice
    cases hsplice
  · refine .of_not_chain (.declaredMember hx.settled unknown declared leads unspliced) (hmember _) ?_ ?_
    · simp [Node.isChainOf]
    · simp
  · refine .of_not_chain (.openMember hx.settled unknown undeclared noFeature) (hmember _) ?_ ?_
    · simp [Node.isChainOf]
    · simp [Reduction.ofComputed]

/-! ### Whole trees -/

/-- A compiled argument has the compiled text as its value. -/
theorem valued_of_compiledArgument {compile : Node → Except RuleError String} {argument : Node}
    {level : Nat} {text : String} (hcompile : compile argument = .ok text)
    (h : engine.optimizer.compiledArgument compile argument level = .ok r) :
    engine.Valued scope r (.string text) := by
  obtain ⟨compiled, hcompiled, -, hliteral⟩ := compiledArgument_eq_ok_iff.mp h
  cases hcompile.symm.trans hcompiled
  exact valued_of_literal hliteral

/-- A callee that is known to be a feature is the name of one that evaluation calls. -/
theorem Coherent.exists_of_callee? (coherent : engine.Coherent) (settled : engine.optimizer.Settled x)
    {static : StaticFeature Value} (h : engine.optimizer.callee? x = some static) :
    ∃ name feature, engine.evaluator.feature? name = some feature ∧ feature.staticSide = static ∧
      x = ⟨.identifier 1 name, ⟨.one "function", 1, .feature name⟩⟩ := by
  obtain ⟨name, origin, known⟩ := callee?_eq_some h
  obtain ⟨feature, hfeature, hstatic⟩ := coherent.exists_feature known
  exact ⟨name, feature, hfeature, hstatic, settled.eq_of_origin origin⟩

/-- Every validated tree has a value. -/
theorem Coherent.exists_valued (coherent : engine.Coherent) (scope : Scope)
    (total : engine.EveryFeature Feature.IsTotal)
    (lenient : engine.evaluator.config.strictMembers = false) {level : Nat} {ast : Node}
    (names : ∀ name ∈ ast.valueNames, engine.evaluator.feature? name = none)
    (h : engine.optimizer.reduceAt level ast = .ok r) : ∃ v, engine.Valued scope r v := by
  -- the parts of a list have values if each of them has one
  have exists_values {nodes : List Node} {xs : List (Reduced Value)} {level : Nat}
      (names : ∀ name ∈ Node.valueNamesOfAll nodes, engine.evaluator.feature? name = none)
      (each : ∀ node ∈ nodes, ∀ x,
        (∀ name ∈ node.valueNames, engine.evaluator.feature? name = none) →
          engine.optimizer.reduceAt level node = .ok x → ∃ v, engine.Valued scope x v)
      (hxs : List.Forall₂ (fun n x => engine.optimizer.reduceAt level n = .ok x) nodes xs) :
      ∃ vs, List.Forall₂ (engine.Valued scope) xs vs :=
    exists_forall₂ fun x hx => by
      obtain ⟨node, hnode, hreduce⟩ := exists_of_mem_forall₂ hxs hx
      exact each node hnode x (Node.forall_valueNames_of_mem names hnode) hreduce
  induction ast generalizing level r with
  | literal w value verbatim => exact ⟨value, valued_of_literal (reduceAt_literal_iff.mp h).2⟩
  | identifier w name =>
      have free := names name (by simp [Node.valueNames])
      exact ⟨_, coherent.valued_identifier free (reduceAt_identifier_iff.mp h).2⟩
  | unary w op operand ih =>
      obtain ⟨-, x, hx, h⟩ := reduceAt_unary_iff.mp h
      obtain ⟨a, ha⟩ := ih names hx
      exact ⟨_, coherent.valued_unary ha h⟩
  | binary w op left right ihLeft ihRight =>
      obtain ⟨-, x, hx, y, hy, h⟩ := reduceAt_binary_iff.mp h
      rw [Node.valueNames, List.forall_mem_append] at names
      obtain ⟨a, ha⟩ := ihLeft names.1 hx
      obtain ⟨b, hb⟩ := ihRight names.2 hy
      exact ⟨_, coherent.valued_binary ha hb h⟩
  | logical w op operands ih =>
      obtain ⟨-, xs, hxs, h⟩ := reduceAt_logical_iff.mp h
      obtain ⟨vs, hvs⟩ := exists_values names (fun n hn x names hx => ih n hn names hx) hxs
      obtain ⟨v, hv, -⟩ := coherent.exists_of_chainOutcome (logical_eq_ok h) hvs
      exact ⟨v, hv⟩
  | array w elements ih =>
      obtain ⟨-, xs, hxs, h⟩ := reduceAt_array_iff.mp h
      obtain ⟨vs, hvs⟩ := exists_values names (fun n hn x names hx => ih n hn names hx) hxs
      exact ⟨_, coherent.valued_array hvs h⟩
  | conditional w test consequent alternate ihTest ihConsequent ihAlternate =>
      obtain ⟨-, x, hx, y, hy, z, hz, h⟩ := reduceAt_conditional_iff.mp h
      rw [Node.valueNames, List.forall_mem_append, List.forall_mem_append] at names
      obtain ⟨t, ht⟩ := ihTest names.1.1 hx
      obtain ⟨a, ha⟩ := ihConsequent names.1.2 hy
      obtain ⟨b, hb⟩ := ihAlternate names.2 hz
      exact ⟨_, coherent.valued_conditional ht ha hb h⟩
  | sequence w expressions ih =>
      obtain ⟨-, xs, hxs, h⟩ := reduceAt_sequence_iff.mp h
      obtain ⟨vs, hvs⟩ := exists_values names (fun n hn x names hx => ih n hn names hx) hxs
      exact ⟨_, valued_sequence hvs h⟩
  | call w callee arguments ihCallee ih =>
      obtain ⟨-, x, hx, static, hstatic, xs, hxs, h⟩ := reduceAt_call_iff.mp h
      obtain ⟨name, feature, hfeature, rfl, rfl⟩ :=
        coherent.exists_of_callee? (settled_of_reduceAt hx) hstatic
      obtain ⟨value, hanswers⟩ := total name feature hfeature
      rw [Node.valueNames, List.forall_mem_append] at names
      have hvalues : ∃ vs, List.Forall₂ (engine.Valued scope) xs vs :=
        exists_forall₂ fun y hy => by
          obtain ⟨argument, hargument, hreduce⟩ := exists_of_mem_forall₂ hxs hy
          unfold ArgumentReduces at hreduce
          split at hreduce
          · obtain ⟨text, hcompile, -, -⟩ := compiledArgument_eq_ok_iff.mp hreduce
            exact ⟨_, valued_of_compiledArgument hcompile hreduce⟩
          · exact ih argument hargument (Node.forall_valueNames_of_mem names.2 hargument) hreduce
      obtain ⟨vs, hvs⟩ := hvalues
      refine ⟨_, coherent.valued_call hfeature hvs (fun hcompiled y hy => ?_) (hanswers scope vs) h⟩
      obtain ⟨argument, -, hreduce⟩ := exists_of_mem_forall₂ hxs hy
      exact (hreduce.settled settled_of_reduceAt).2 hcompiled
  | member w object path ih =>
      obtain ⟨-, x, hx, h⟩ := reduceAt_member_iff.mp h
      obtain ⟨a, ha⟩ := ih names hx
      exact ⟨_, coherent.valued_member lenient ha h⟩

/-- All of some validated trees have values. -/
theorem Coherent.exists_all_valued (coherent : engine.Coherent) (scope : Scope)
    (total : engine.EveryFeature Feature.IsTotal)
    (lenient : engine.evaluator.config.strictMembers = false) {level : Nat} {nodes : List Node}
    {xs : List (Reduced Value)}
    (names : ∀ name ∈ Node.valueNamesOfAll nodes, engine.evaluator.feature? name = none)
    (hxs : List.Forall₂ (fun n x => engine.optimizer.reduceAt level n = .ok x) nodes xs) :
    ∃ vs, List.Forall₂ (engine.Valued scope) xs vs :=
  exists_forall₂ fun x hx => by
    obtain ⟨node, hnode, hreduce⟩ := exists_of_mem_forall₂ hxs hx
    exact coherent.exists_valued scope total lenient
      (Node.forall_valueNames_of_mem names hnode) hreduce

/-- A callee that names a feature is an identifier: whatever else is validated has a value. -/
theorem Coherent.exists_callee (coherent : engine.Coherent)
    (total : engine.EveryFeature Feature.IsTotal)
    (lenient : engine.evaluator.config.strictMembers = false) {level : Nat} {callee : Node}
    (names : ∀ name ∈ if callee.identifier?.isSome then [] else callee.valueNames,
      engine.evaluator.feature? name = none)
    {static : StaticFeature Value} (hx : engine.optimizer.reduceAt level callee = .ok x)
    (h : engine.optimizer.callee? x = some static) :
    ∃ w name feature, callee = .identifier w name ∧
      engine.evaluator.feature? name = some feature ∧ feature.staticSide = static ∧
      x = ⟨.identifier 1 name, ⟨.one "function", 1, .feature name⟩⟩ := by
  obtain ⟨name, feature, hfeature, rfl, rfl⟩ := coherent.exists_of_callee? (settled_of_reduceAt hx) h
  cases callee with
  | identifier w called =>
      rcases identifier_eq_ok (reduceAt_identifier_iff.mp hx).2 with
        ⟨static, -, heq⟩ | ⟨shape, -, -, ⟨value, hsplice, -⟩ | ⟨-, heq⟩⟩
      · cases heq
        exact ⟨w, name, feature, rfl, hfeature, rfl, rfl⟩
      · rw [coherent.domain] at hsplice
        cases hsplice
      · exact absurd (congrArg (fun x => x.result.origin) heq) (by simp)
  | _ =>
      obtain ⟨u, hu⟩ := coherent.exists_valued ⟨[]⟩ total lenient names hx
      exact absurd rfl (hu.value name)

end Engine

end RuleLang
