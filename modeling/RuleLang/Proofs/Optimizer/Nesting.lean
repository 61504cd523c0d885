import RuleLang.Proofs.Optimizer.FixedPoint
import RuleLang.Proofs.Optimizer.Reports

/-!
# The limit of nesting is exact

Where no feature compiles its arguments, every subtree is visited one level below its parent, also one
whose value is never needed. So a tree is looked into down to its depth and no further, whatever folds or
gives way to a subtree meanwhile.

* `Optimizer.fits_of_accepted`: a tree that is validated stood within the levels itself.
* `Optimizer.rootCause_ne_of_fits`: a tree within the levels never reports that they are exceeded.
* `Optimizer.nesting_of_validate`: both, for whole trees, and that a subtree may take the place of its
  parent.
-/

namespace RuleLang

namespace Optimizer

variable {V : Type} {o : Optimizer V} {level : Nat} {node : Node} {e : RuleError}

/-- Where no feature compiles its arguments, all direct subtrees are validated as they are. -/
theorem Uncompiled.validatedChildren_eq (h : o.Uncompiled) (level : Nat) (node : Node) :
    o.validatedChildren level node = node.children := by
  cases node with
  | call w callee arguments =>
      have hcompiler : (o.calleeFeature? (level + 1) callee).bind StaticFeature.argumentCompiler? = none := by
        rw [Option.bind_eq_none_iff]
        intro feature hfeature
        obtain ⟨name, known⟩ := exists_of_calleeFeature? hfeature
        exact h name feature known
      rw [validatedChildren, hcompiler]
      rfl
  | _ => rfl

/-- Where no feature compiles its arguments, no argument is compiled on the way. -/
theorem Uncompiled.visits_ne (h : o.Uncompiled) {before after : List Visit}
    {compile : Node → Except RuleError String} {argument : Node} :
    o.visits level node ≠ before ++ .compiled compile argument :: after := by
  intro split
  have mem : Visit.compiled compile argument ∈ o.visits level node := by simp [split]
  exact h.not_mem_visits mem

/-- A tree that is validated stood within the levels, as it was given. -/
theorem fits_of_accepted (uncompiled : o.Uncompiled) {r : Reduced V}
    (h : o.reduceAt level node = .ok r) : o.Fits level node := by
  induction node using Node.induction_children generalizing level r with
  | step node ih =>
      have hlevel := le_of_reduceAt h
      -- every child is validated one level further down, so it fits there
      have hdepth : ∀ child ∈ node.children, child.depth ≤ o.config.maxDepth - level := by
        intro child mem
        rw [← uncompiled.validatedChildren_eq level node] at mem
        obtain ⟨x, hx⟩ := exists_of_mem_validatedChildren h mem
        rw [uncompiled.validatedChildren_eq] at mem
        have hfits := ih child mem hx
        unfold Fits at hfits
        omega
      have hnode := Node.depth_le_of_children hdepth
      unfold Fits
      omega

/-- A tree within the levels never reports that they are exceeded, unless a feature does. -/
theorem rootCause_ne_of_fits (hd : o.domain.IsStandard) (uncompiled : o.Uncompiled)
    (describes : ∀ name feature, o.feature? name = some feature → ∀ results cause,
      feature.describe results = .error cause → ∀ limit, cause.rootCause ≠ .depthExceeded limit)
    (hreports : o.Reports level node e) (fits : o.Fits level node) (limit : Nat) :
    e.rootCause ≠ .depthExceeded limit := by
  induction hreports with
  | tooDeep deep => exact absurd fits.le (Nat.not_le.mpr deep)
  | @child level node child before after e shallow split accepted _ ih =>
      have mem : Visit.validated child ∈ o.visits level node := by simp [split]
      exact ih (fits.child (mem_children_of_visits mem))
  | compiler _ split | compiledText _ split => exact absurd split uncompiled.visits_ne
  | own shallow accepted faulty =>
      obtain ⟨place, cause, hfinds, rfl⟩ := faulty.blames hd
      rw [RuleError.rootCause_blameNode]
      rcases hfinds with hfault | ⟨name, feature, results, known, refused⟩
      · exact hfault.rootCause_ne limit
      · exact describes name feature known results cause refused limit

/-- A tree that is validated is no deeper than the limit of nesting, and one that is no deeper never fails
for that limit. Nor does a rewrite on the way: what a subtree is validated to, it is validated to again in
the place of its parent. -/
theorem nesting_of_validate (hd : o.domain.IsStandard) (uncompiled : o.Uncompiled)
    (describes : ∀ name feature, o.feature? name = some feature → ∀ results cause,
      feature.describe results = .error cause → ∀ limit, cause.rootCause ≠ .depthExceeded limit)
    (ast : Node) :
    (∀ tree, o.validate ast = .ok tree → ast.depth - 1 ≤ o.config.maxDepth) ∧
      (ast.depth - 1 ≤ o.config.maxDepth → ∀ e, o.validate ast = .error e →
        ∀ limit, e.rootCause ≠ .depthExceeded limit) ∧
      ∀ level part r, o.reduceAt (level + 1) part = .ok r → o.reduceAt level r.node = .ok r := by
  refine ⟨fun tree validated => ?_, fun hdepth e failed => ?_, fun level part r reduced => ?_⟩
  · obtain ⟨r, hr, -⟩ := map_eq_ok_iff.mp validated
    have hfits : o.Fits 0 ast := fits_of_accepted uncompiled hr
    unfold Fits at hfits
    omega
  · have hreports : o.Reports 0 ast e := reports_of_reduceAt (map_eq_error_iff.mp failed)
    have hfits : o.Fits 0 ast := by
      unfold Fits
      omega
    exact rootCause_ne_of_fits hd uncompiled describes hreports hfits
  · have faithful : o.CompilersFaithful := fun name feature compile known hcompile => by
      rw [uncompiled name feature known] at hcompile
      cases hcompile
    exact reduceAt_of_reduceAt_succ faithful reduced

end Optimizer

namespace Sample

/-- The sample compiler with three levels below the root. -/
def shallowCompiler : Sql.Compiler :=
  compiler.withConfig { OptimizerConfig.default with maxDepth := 3 }

/-- A rule of three levels below its root, about a column that the schema does not have. -/
def unknownColumn : Node :=
  .logical 0 .and [callOf "isCredit" [], .binary 0 .eq (memberOf "past" "payee") (numeral 100)]

/-- Both rules go down to the last level. One is validated, and the other fails for its column. -/
theorem nesting_of_validate_unknownColumn :
    (∃ tree, shallowCompiler.validate sqlRule = .ok tree ∧ sqlRule.depth - 1 ≤ 3) ∧
      ∃ e, shallowCompiler.validate unknownColumn = .error e ∧ unknownColumn.depth - 1 = 3 ∧
        e.rootCause ≠ .depthExceeded 3 := by
  have classifiers : ∀ name feature, shallowCompiler.feature? name = some feature →
      ∃ classifier : Classifier, feature = classifier.sqlFeature := by
    intro name feature known
    rcases List.mem_cons.mp (Members.mem_of_find? known) with h | h
    · exact ⟨Classifier.credit, congrArg Prod.snd h⟩
    · exact ⟨Classifier.debit, congrArg Prod.snd (List.mem_singleton.mp h)⟩
  have uncompiled : shallowCompiler.Uncompiled := by
    intro name feature known
    obtain ⟨classifier, rfl⟩ := classifiers name feature known
    rfl
  have describes : ∀ name feature, shallowCompiler.feature? name = some feature → ∀ results cause,
      feature.describe results = .error cause → ∀ limit, cause.rootCause ≠ .depthExceeded limit := by
    intro name feature known results cause refused
    obtain ⟨classifier, rfl⟩ := classifiers name feature known
    exact (Optimizer.isFault_describe_classifier refused).rootCause_ne
  have hvalid : ∃ tree, shallowCompiler.validate sqlRule = .ok tree := ⟨_, rfl⟩
  have hfails : ∃ e, shallowCompiler.validate unknownColumn = .error e := ⟨_, rfl⟩
  obtain ⟨tree, validated⟩ := hvalid
  obtain ⟨e, failed⟩ := hfails
  have hrule := Optimizer.nesting_of_validate .sql uncompiled describes sqlRule
  have hcolumn := Optimizer.nesting_of_validate .sql uncompiled describes unknownColumn
  refine ⟨⟨tree, validated, hrule.1 tree validated⟩, e, failed, by decide, ?_⟩
  exact hcolumn.2.1 (by decide) e failed 3

end Sample

end RuleLang
