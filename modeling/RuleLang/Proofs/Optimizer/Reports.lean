import RuleLang.Proofs.Engine.Registration
import RuleLang.Proofs.Node.Induction
import RuleLang.Proofs.Optimizer.Faults
import RuleLang.Sample

/-!
# Which error validation reports

Validation reports the fault of the first node in the order of evaluation whose own subtrees are in order.
Every subtree is validated, also one whose value is never needed, except inside an argument that a compiler
takes.

* `Optimizer.Stands`: where the subtrees of a tree are validated.
* `Optimizer.Reports`: the error of a tree, given recursively.
* `Optimizer.Candid`: an optimizer in one of the two domains whose features leave it to validation to name
  a node, and which compiles arguments, if any, to SQL.
* `Optimizer.reports_of_validate`: a validated tree is validated throughout, and the error of any other
  tree is the one that it reports.
-/

namespace RuleLang

namespace Optimizer

variable {V : Type} {o : Optimizer V} {level : Nat} {node : Node} {e : RuleError}

/-! ### Subtrees that are validated -/

/-- The direct subtrees that are validated as they are: all, but for the arguments of a feature that has a
compiler for them. -/
def validatedChildren (o : Optimizer V) (level : Nat) : Node → List Node
  | .call _ callee arguments =>
    match (o.calleeFeature? (level + 1) callee).bind StaticFeature.argumentCompiler? with
    | some _ => [callee]
    | none => callee :: arguments
  | node => node.children

/-- What is validated below a node are some of its direct subtrees. -/
theorem validatedChildren_subset : o.validatedChildren level node ⊆ node.children := by
  cases node with
  | call w callee arguments =>
      rw [validatedChildren]
      split
      · exact List.cons_subset_cons callee (List.nil_subset arguments)
      · exact List.Subset.refl _
  | _ => exact List.Subset.refl _

/-- What is visited to be validated is validated as it is. -/
theorem mem_validatedChildren_of_visits {child : Node} (h : Visit.validated child ∈ o.visits level node) :
    child ∈ o.validatedChildren level node := by
  cases node with
  | call w callee arguments =>
      rw [validatedChildren]
      cases hcompiler : (o.calleeFeature? (level + 1) callee).bind StaticFeature.argumentCompiler? with
      | none => exact mem_children_of_visits h
      | some compile =>
          obtain ⟨feature, hcallee, hcompiler⟩ := Option.bind_eq_some_iff.mp hcompiler
          rw [visits, hcallee] at h
          rcases List.mem_cons.mp h with h | h
          · cases h
            exact List.mem_cons_self
          · obtain ⟨argument, -, h⟩ := List.mem_map.mp h
            rw [argumentVisit, hcompiler] at h
            cases h
  | _ => exact mem_children_of_visits h

/-- A tree stands at a nesting level in another one: it is that tree, or stands in a direct subtree one
level further down, but not inside an argument that is compiled. -/
inductive Stands (o : Optimizer V) (depth : Nat) (part : Node) : Nat → Node → Prop
  | root : Stands o depth part depth part
  | child {level : Nat} {child node : Node} (mem : child ∈ o.validatedChildren level node)
      (h : Stands o depth part (level + 1) child) : Stands o depth part level node

/-- Below a validated node, the subtrees that are not compiled are validated. -/
theorem exists_of_mem_validatedChildren {r : Reduced V} (h : o.reduceAt level node = .ok r)
    {child : Node} (mem : child ∈ o.validatedChildren level node) :
    ∃ x, o.reduceAt (level + 1) child = .ok x := by
  have hvisit : Visit.validated child ∈ o.visits level node := by
    cases node with
    | call w callee arguments =>
        obtain ⟨-, x, hx, feature, hfeature, -⟩ := reduceAt_call_iff.mp h
        have hcallee : o.calleeFeature? (level + 1) callee = some feature := by
          rw [calleeFeature?, hx]
          exact hfeature
        rw [validatedChildren, hcallee, Option.bind_some] at mem
        rw [visits, hcallee]
        cases hcompiler : feature.argumentCompiler? with
        | some compile =>
            rw [hcompiler] at mem
            rw [List.mem_singleton.mp mem]
            exact List.mem_cons_self
        | none =>
            rw [hcompiler] at mem
            rcases List.mem_cons.mp mem with rfl | mem
            · exact List.mem_cons_self
            · refine List.mem_cons_of_mem _ (List.mem_map.mpr ⟨child, mem, ?_⟩)
              rw [argumentVisit, hcompiler]
    | _ => exact List.mem_map_of_mem mem
  exact accepted_of_reduceAt h hvisit

/-- Every tree that stands in a validated one is validated where it stands. -/
theorem Stands.exists_reduceAt {depth : Nat} {part : Node} (h : o.Stands depth part level node)
    {r : Reduced V} (hr : o.reduceAt level node = .ok r) : ∃ x, o.reduceAt depth part = .ok x := by
  induction h generalizing r with
  | root => exact ⟨r, hr⟩
  | child mem _ ih =>
      obtain ⟨x, hx⟩ := exists_of_mem_validatedChildren hr mem
      exact ih hx

/-! ### The error of a tree -/

/-- The error of a tree at a nesting level. -/
inductive Reports (o : Optimizer V) : Nat → Node → RuleError → Prop
  /-- A node too deep down reports itself. -/
  | tooDeep {level : Nat} {node : Node} (deep : o.config.maxDepth < level) :
      Reports o level node (.invalidNode node.compactJson (.depthExceeded o.config.maxDepth))
  /-- The error of the first subtree that fails is passed on. -/
  | child {level : Nat} {node child : Node} {before after : List Visit} {e : RuleError}
      (shallow : level ≤ o.config.maxDepth)
      (split : o.visits level node = before ++ .validated child :: after)
      (accepted : ∀ v ∈ before, v.Accepted o (level + 1)) (h : Reports o (level + 1) child e) :
      Reports o level node e
  /-- The error of a compiler for arguments is blamed on the argument, if it names no node. -/
  | compiler {level : Nat} {node argument : Node} {compile : Node → Except RuleError String}
      {before after : List Visit} {e : RuleError} (shallow : level ≤ o.config.maxDepth)
      (split : o.visits level node = before ++ .compiled compile argument :: after)
      (accepted : ∀ v ∈ before, v.Accepted o (level + 1)) (fails : compile argument = .error e) :
      Reports o level node (e.blameNode argument)
  /-- The text of a compiled argument stands as a verbatim literal, which may be too deep down itself. -/
  | compiledText {level : Nat} {node argument : Node} {compile : Node → Except RuleError String}
      {before after : List Visit} {text : String} {e : RuleError} (shallow : level ≤ o.config.maxDepth)
      (split : o.visits level node = before ++ .compiled compile argument :: after)
      (accepted : ∀ v ∈ before, v.Accepted o (level + 1)) (compiles : compile argument = .ok text)
      (h : Reports o (level + 1) (.ofValue (.string text) true) e) : Reports o level node e
  /-- A node has a fault of its own when all that is visited below it is accepted. -/
  | own {level : Nat} {node : Node} {xs : List (Reduced V)} {e : RuleError}
      (shallow : level ≤ o.config.maxDepth)
      (accepted : List.Forall₂ (fun visit x => visit.outcome o (level + 1) = .ok x)
        (o.visits level node) xs)
      (faulty : o.Rule node xs (.error e)) : Reports o level node e

/-- A compiled argument is the verbatim literal of its text. -/
theorem compiledArgument_eq {compile : Node → Except RuleError String} {argument : Node} :
    o.compiledArgument compile argument level =
      match compile argument with
      | .error e => .error (e.blameNode argument)
      | .ok text => o.reduceAt level (.ofValue (.string text) true) := by
  unfold compiledArgument
  cases compile argument with
  | error e => rfl
  | ok text =>
      dsimp only
      rw [Node.ofValue, Optimizer.reduceAt]

/-- What a tree reports is how its validation fails. -/
theorem Reports.reduceAt (h : o.Reports level node e) : o.reduceAt level node = .error e := by
  induction h with
  | tooDeep deep => exact reduceAt_of_lt deep
  | child shallow split accepted _ ih => exact reduceAt_of_first shallow split accepted ih
  | compiler shallow split accepted fails =>
      refine reduceAt_of_first shallow split accepted ?_
      rw [Visit.outcome, compiledArgument_eq, fails]
  | compiledText shallow split accepted compiles _ ih =>
      refine reduceAt_of_first shallow split accepted ?_
      rw [Visit.outcome, compiledArgument_eq, compiles]
      exact ih
  | own shallow accepted faulty => exact (rule_of_visits shallow accepted).unique faulty

/-- A literal reports itself. -/
theorem reports_literal {value : Value} {verbatim : Bool}
    (h : o.reduceAt level (.ofValue value verbatim) = .error e) :
    o.Reports level (.ofValue value verbatim) e := by
  rcases Nat.lt_or_ge o.config.maxDepth level with deep | shallow
  · rw [reduceAt_of_lt deep] at h
    cases h
    exact .tooDeep deep
  · have hrule : o.Rule (.ofValue value verbatim) [] (o.reduceAt level (.ofValue value verbatim)) :=
      rule_of_visits shallow .nil
    rw [h] at hrule
    exact .own shallow .nil hrule

/-- How validation fails is what the tree reports. -/
theorem reports_of_reduceAt (h : o.reduceAt level node = .error e) : o.Reports level node e := by
  induction node using Node.induction_children generalizing level e with
  | step node ih =>
      rcases Nat.lt_or_ge o.config.maxDepth level with deep | shallow
      · rw [reduceAt_of_lt deep] at h
        cases h
        exact .tooDeep deep
      · rcases (reduceAt_eq_error_iff shallow).mp h with
          ⟨before, visit, after, split, accepted, fails⟩ | ⟨xs, accepted, faulty⟩
        · cases visit with
          | validated child =>
              have mem : Visit.validated child ∈ o.visits level node := by simp [split]
              exact .child shallow split accepted (ih child (mem_children_of_visits mem) fails)
          | compiled compile argument =>
              rw [Visit.outcome, compiledArgument_eq] at fails
              cases hcompile : compile argument with
              | error cause =>
                  rw [hcompile] at fails
                  cases fails
                  exact .compiler shallow split accepted hcompile
              | ok text =>
                  rw [hcompile] at fails
                  exact .compiledText shallow split accepted hcompile (reports_literal fails)
        · exact .own shallow accepted faulty

/-! ### Optimizers whose errors name one node -/

/-- An optimizer in one of the two domains whose features return errors that name no node, and which
compiles the arguments of calls, if at all, with such optimizers in the domain of SQL. -/
inductive Candid : {V : Type} → Optimizer V → Prop
  | intro {V : Type} {o : Optimizer V} (domain : o.domain.IsStandard)
      (describes : ∀ name feature, o.feature? name = some feature → ∀ results cause,
        feature.describe results = .error cause → cause.isInvalidNode = false)
      (compiler : String → Sql.Compiler)
      (compiles : ∀ name feature compile, o.feature? name = some feature →
        feature.argumentCompiler? = some compile → compile = Sql.compileToSql (compiler name))
      (candid : ∀ name feature, o.feature? name = some feature → feature.argumentCompiler?.isSome →
        Candid (compiler name)) : Candid o

/-- The compiler of SQL fails as validation does, or because the validated tree has no text. -/
theorem isInvalidNode_of_compileToSql {compiler : Sql.Compiler}
    (validation : ∀ ast e, compiler.validate ast = .error e → e.NamesOnce) {ast : Node}
    (h : Sql.compileToSql compiler ast = .error e) : e.isInvalidNode = false ∨ e.NamesOnce := by
  unfold Sql.compileToSql at h
  cases htree : compiler.validate ast with
  | error cause =>
      rw [htree] at h
      cases h
      exact .inr (validation ast e htree)
  | ok tree =>
      rw [htree] at h
      change Sql.literalText tree = .error e at h
      unfold Sql.literalText at h
      split at h
      · exact .inl (Sql.isFault_renderLiteral (map_eq_error_iff.mp h)).isInvalidNode
      · cases h
        exact .inl rfl

/-- The errors of candid optimizers name one node. -/
theorem Candid.namesOnce (h : o.Candid) {level : Nat} {node : Node} {e : RuleError}
    (hreports : o.Reports level node e) : e.NamesOnce := by
  induction h generalizing level node e with
  | @intro V o domain describes compiler compiles candid ih =>
      induction hreports with
      | tooDeep deep => exact ⟨_, _, rfl, rfl⟩
      | child shallow split accepted _ ih => exact ih
      | @compiler level node argument compile before after e shallow split accepted fails =>
          refine RuleError.namesOnce_blameNode argument ?_
          have mem : Visit.compiled compile argument ∈ o.visits level node := by simp [split]
          obtain ⟨name, feature, known, hcompiler⟩ := exists_feature_of_visits mem
          rw [compiles name feature compile known hcompiler] at fails
          refine isInvalidNode_of_compileToSql (fun ast cause hcause => ?_) fails
          have hreports : (compiler name).Reports 0 ast cause :=
            reports_of_reduceAt (map_eq_error_iff.mp hcause)
          exact ih name feature known (by simp [hcompiler]) hreports
      | compiledText shallow split accepted compiles _ ih => exact ih
      | own shallow accepted faulty => exact faulty.namesOnce domain describes

/-- A feature that compiles no arguments may be added, if its description names no node. -/
theorem Candid.addFeature (h : o.Candid) (name : String) {feature : StaticFeature V}
    (uncompiled : feature.argumentCompiler? = none)
    (describes : ∀ results cause, feature.describe results = .error cause →
      cause.isInvalidNode = false) : (o.addFeature name feature).Candid := by
  have known {other : String} {found : StaticFeature V}
      (hfound : (o.addFeature name feature).feature? other = some found) :
      found = feature ∨ o.feature? other = some found := by
    rw [feature?_addFeature] at hfound
    split at hfound
    · exact .inl (Option.some.inj hfound).symm
    · exact .inr hfound
  obtain ⟨domain, described, compiler, compiles, candid⟩ := h
  refine .intro domain ?_ compiler ?_ ?_
  · intro other found hfound
    rcases known hfound with rfl | hfound
    · exact describes
    · exact described other found hfound
  · intro other found compile hfound hcompile
    rcases known hfound with rfl | hfound
    · cases uncompiled.symm.trans hcompile
    · exact compiles other found compile hfound hcompile
  · intro other found hfound hcompile
    rcases known hfound with rfl | hfound
    · rw [uncompiled] at hcompile
      cases hcompile
    · exact candid other found hfound hcompile

/-- A feature whose description names no node, and which compiles its arguments, if at all, by the given
compiler. -/
structure CandidFeature {ω : Type} (compiler : Sql.Compiler) (feature : Feature ω) : Prop where
  describes : ∀ results cause, feature.describe results = .error cause → cause.isInvalidNode = false
  compiles : ∀ compile, feature.argumentCompiler? = some compile → compile = Sql.compileToSql compiler

/-- An engine with such features validates with a candid optimizer. -/
theorem candid_of_everyFeature {ω : Type} {engine : Engine ω} (coherent : engine.Coherent)
    {compiler : Sql.Compiler} (features : engine.EveryFeature (CandidFeature compiler))
    (candid : compiler.Candid) : engine.optimizer.Candid := by
  refine .intro ?_ ?_ (fun _ => compiler) ?_ (fun _ _ _ _ => candid)
  · rw [coherent.domain]
    exact .concrete
  · intro name static known results cause hcause
    obtain ⟨feature, hfeature, rfl⟩ := coherent.exists_feature known
    exact (features name feature hfeature).describes results cause (map_eq_error_iff.mp hcause)
  · intro name static compile known hcompile
    obtain ⟨feature, hfeature, rfl⟩ := coherent.exists_feature known
    exact (features name feature hfeature).compiles compile hcompile

/-- What a classifier refuses is a fault. -/
theorem isFault_describe_classifier {classifier : Classifier} {value? : Option V}
    {arguments : List (Reduction V)} (h : classifier.describe value? arguments = .error e) :
    e.IsFault := by
  unfold Classifier.describe at h
  split at h
  · cases h
  · cases h
    exact .typeError _

/-- The transaction features are such features. -/
theorem candidFeature_transactions {ω : Type} {engine : Engine ω} {compiler : Sql.Compiler}
    (h : engine.EveryFeature (CandidFeature compiler)) (runner : QueryRunner ω) :
    (engine.withTransactionFeatures compiler runner).EveryFeature (CandidFeature compiler) := by
  refine h.addTransactionFeatures (fun classifier => ⟨?_, fun compile h => by cases h⟩)
    (fun aggregate => ⟨fun results cause hcause => ?_, fun compile h => (Option.some.inj h).symm⟩)
  · exact fun results cause hcause => (isFault_describe_classifier hcause).isInvalidNode
  · change (aggregate.checkArity results.length >>= _) = .error cause at hcause
    unfold Aggregate.checkArity at hcause
    split at hcause
    · cases hcause
    · cases hcause
      rfl

/-- Where a tree is validated, so is every tree that stands in it. Where it is not, its error is the one
that the tree reports. In either domain, with features that leave it to validation to name a node, that
error names exactly one. -/
theorem reports_of_validate (o : Optimizer V) (ast : Node) :
    (∀ tree, o.validate ast = .ok tree → ∀ depth part, o.Stands depth part 0 ast →
        ∃ x, o.reduceAt depth part = .ok x) ∧
      (∀ e, o.validate ast = .error e ↔ o.Reports 0 ast e) ∧
      (o.Candid → ∀ e, o.validate ast = .error e → e.NamesOnce) := by
  have hreports (e : RuleError) : o.validate ast = .error e ↔ o.Reports 0 ast e := by
    rw [validate, map_eq_error_iff, compile]
    exact ⟨reports_of_reduceAt, Reports.reduceAt⟩
  refine ⟨fun tree validated depth part stands => ?_, hreports, fun candid e h => ?_⟩
  · obtain ⟨r, hr, -⟩ := map_eq_ok_iff.mp validated
    exact stands.exists_reduceAt hr
  · exact candid.namesOnce ((hreports e).mp h)

end Optimizer

namespace Sample

/-- The classifiers compile to SQL. -/
theorem candid_compiler : compiler.Candid := by
  have candid : (Sql.newCompiler sqlSchema).Candid :=
    .intro .sql (fun _ _ h => by cases h) (fun _ => Sql.newCompiler sqlSchema)
      (fun _ _ _ h => by cases h) (fun _ _ h => by cases h)
  have describes (classifier : Classifier) (value? : Option Sql.Fragment)
      (results : List (Reduction Sql.Fragment)) (cause : RuleError)
      (h : classifier.describe value? results = .error cause) : cause.isInvalidNode = false :=
    (Optimizer.isFault_describe_classifier h).isInvalidNode
  exact (candid.addFeature "isCredit" rfl (describes _ _)).addFeature "isDebit" rfl (describes _ _)

/-- The sample features are candid about their failures. -/
theorem candid_optimizer : (engine (ω := Unit) statementText).optimizer.Candid :=
  Optimizer.candid_of_everyFeature
    ((Engine.Reachable.new valueSchema).withTransactionFeatures compiler statementText).coherent
    (Optimizer.candidFeature_transactions (Engine.everyFeature_new valueSchema _) statementText)
    candid_compiler

/-- A rule whose second branch is never taken. -/
def settledChoice : Node :=
  .conditional 0 (.ofValue (.bool true) false) (memberOf "trx" "country") (callOf "isCredit" [])

/-- A rule that counts within a window of time that the compiler does not know. -/
def unknownWindow : Node :=
  .conditional 0 (.ofValue (.bool true) false) (memberOf "trx" "country")
    (callOf "count" [.binary 0 .eq (memberOf "past" "country") (memberOf "trx" "country"),
      .identifier 0 "lastYear"])

/-- The branch that is never taken is validated, and an error in it is the error of the rule. -/
theorem reports_of_validate_unknownWindow :
    (∃ x, (engine (ω := Unit) statementText).optimizer.reduceAt 1 (callOf "isCredit" []) = .ok x) ∧
      ∃ e, (engine (ω := Unit) statementText).optimizer.validate unknownWindow = .error e ∧
        e.rootCause = .unknownIdentifier "lastYear" ∧
        (engine (ω := Unit) statementText).optimizer.Reports 0 unknownWindow e ∧ e.NamesOnce := by
  have hvalid : ∃ tree, (engine (ω := Unit) statementText).optimizer.validate settledChoice = .ok tree :=
    ⟨_, rfl⟩
  obtain ⟨tree, validated⟩ := hvalid
  have hfails : ∃ e, (engine (ω := Unit) statementText).optimizer.validate unknownWindow = .error e ∧
      e.rootCause = .unknownIdentifier "lastYear" := ⟨_, rfl, rfl⟩
  obtain ⟨e, failed, hcause⟩ := hfails
  have hchoice := Optimizer.reports_of_validate (engine (ω := Unit) statementText).optimizer settledChoice
  have hwindow := Optimizer.reports_of_validate (engine (ω := Unit) statementText).optimizer unknownWindow
  have mem : callOf "isCredit" [] ∈
      (engine (ω := Unit) statementText).optimizer.validatedChildren 0 settledChoice := by
    simp [settledChoice, Optimizer.validatedChildren, Node.children]
  refine ⟨hchoice.1 tree validated 1 (callOf "isCredit" []) (.child mem .root), e, failed, hcause, ?_, ?_⟩
  · exact (hwindow.2.1 e).mp failed
  · exact hwindow.2.2 candid_optimizer e failed

end Sample

end RuleLang
