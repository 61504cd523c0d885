import RuleLang.Proofs.Engine.Registration
import RuleLang.Proofs.Evaluation.Answers
import RuleLang.Proofs.Optimizer.Levels
import RuleLang.Sample

/-!
# Sequences through validation

The expressions of a sequence are evaluated for what they do, and the last one for its value. Validation
keeps all of them, except where the last one is a literal: then it keeps the literal and nothing else,
and what the others would have done is not done.

* `Engine.evaluate_sequence`: a sequence is evaluated as its validated expressions one after the other,
  or is the literal that it ends in, or is nested too deep.
* `Sample.evaluate_tickThenTwo`: a call before a literal is lost.
-/

namespace RuleLang.Engine

open Optimizer

variable {ω : Type} {engine : Engine ω} {scope : Scope}

/-- Expressions that are validated by themselves are validated in a sequence, to the same trees, or the
sequence is nested too deep for one of them. -/
theorem reduceAll_of_validate {expressions : List Node} {xs : List (Reduced Value)}
    (h : List.Forall₂ (fun e x => engine.optimizer.reduceAt 0 e = .ok x) expressions xs) :
    engine.optimizer.reduceAll 1 expressions = .ok xs ∨
      ∃ err, engine.optimizer.reduceAll 1 expressions = .error err ∧
        err.rootCause = .depthExceeded engine.optimizer.config.maxDepth ∧
        engine.optimizer.config.maxDepth < Node.deepest expressions := by
  have alone : expressions.mapM (engine.optimizer.reduceAt 0) = .ok xs := mapM_eq_ok_iff.mpr h
  have deeper := OrTooDeep.mapM fun e (_ : e ∈ expressions) =>
    orTooDeep_reduceAt (o := engine.optimizer) (Nat.zero_le 1) e
  rw [alone, ← reduceAll_eq_mapM] at deeper
  rcases deeper with hok | ⟨err, herr, hcause⟩
  · exact .inl hok
  · refine .inr ⟨err, herr, hcause, Nat.lt_of_not_le fun hfits => ?_⟩
    have hok : engine.optimizer.reduceAll 1 expressions = .ok xs := by
      refine reduceAll_eq_ok_iff.mpr (forall₂_imp_of_mem h fun e he x hx => ?_)
      have hdeepest := Node.depth_le_deepest he
      exact reduceAt_of_room (.inr (by unfold Fits; omega)) hx
    rw [herr] at hok
    cases hok

/-- The value of a sequence is that of its expressions one after the other. -/
theorem valueOf_sequence (w : Weight) (trees : List Node) :
    engine.valueOf scope (.sequence w trees) =
      .inOrder .undefined (trees.map (engine.valueOf scope)) := by
  rw [valueOf, Evaluator.valueOf, Evaluator.valuesOf_eq_map]
  rfl

/-- What a sequence over validated expressions is evaluated as. -/
inductive SequenceOutcome (engine : Engine ω) (scope : Scope) (trees : List Node)
    (c : Computation ω RuleError Value) : Prop
  /-- The last expression is a literal, which is the answer. Nothing is evaluated. -/
  | folded {w : Weight} {value : Value} {verbatim : Bool}
      (ends : trees.getLast? = some (.literal w value verbatim)) (answers : c = .pure value)
  /-- The last expression, if there is one, is no literal. All are evaluated, one after the other. -/
  | kept (ends : ∀ last, trees.getLast? = some last → ¬ last.isLiteral)
      (evaluates : c = .inOrder .undefined (trees.map (engine.valueOf scope)))

/-- The rule for sequences never fails where constants are values. -/
theorem Coherent.exists_sequence (coherent : engine.Coherent) (xs : List (Reduced Value)) :
    ∃ r, engine.optimizer.sequence xs = .ok r := by
  unfold Optimizer.sequence
  split
  · rw [literal, coherent.domain]
    exact ⟨_, rfl⟩
  · split
    · exact ⟨_, rfl⟩
    · exact ⟨_, rfl⟩

/-- A sequence over validated expressions is evaluated in one of the two ways. -/
theorem Coherent.sequenceOutcome (coherent : engine.Coherent) {w : Weight} {expressions : List Node}
    {xs : List (Reduced Value)} (hxs : engine.optimizer.reduceAll 1 expressions = .ok xs) :
    engine.SequenceOutcome scope (xs.map Reduced.node)
      (engine.evaluate scope (.sequence w expressions)) := by
  obtain ⟨r, hr⟩ := coherent.exists_sequence xs
  have hevaluate : engine.evaluate scope (.sequence w expressions) = engine.valueOf scope r.node := by
    have hreduce : engine.optimizer.reduceAt 0 (.sequence w expressions) = .ok r :=
      reduceAt_sequence_iff.mpr ⟨Nat.zero_le _, xs, reduceAll_eq_ok_iff.mp hxs, hr⟩
    have hvalidate : engine.validate (.sequence w expressions) = .ok r.node :=
      map_eq_ok_iff.mpr ⟨r, hreduce, rfl⟩
    rw [evaluate, hvalidate]
  have settled : ∀ x ∈ xs, engine.optimizer.Settled x := fun x hx => by
    obtain ⟨e, -, h⟩ := exists_of_mem_forall₂ (reduceAll_eq_ok_iff.mp hxs) hx
    exact settled_of_reduceAt h
  have hends : (xs.map Reduced.node).getLast? = xs.getLast?.map Reduced.node := List.getLast?_map
  rcases sequence_eq_ok hr with ⟨rfl, hliteral⟩ | ⟨hlast, constant, hconstant⟩ | ⟨last, hlast, unknown, rfl⟩
  · refine .kept (fun last h => by cases h) ?_
    obtain ⟨rendered, -, rfl⟩ := literal_eq_ok_iff.mp hliteral
    rw [hevaluate]
    rfl
  · have hliteral : r.node.isLiteral :=
      (settled r (List.mem_of_getLast? hlast)).isLiteral_iff.mpr (by rw [hconstant]; rfl)
    rw [hlast, Option.map_some] at hends
    cases hnode : r.node with
    | literal v value verbatim =>
        refine .folded (hnode ▸ hends) ?_
        rw [hevaluate, hnode]
        rfl
    | _ => simp [hnode, Node.isLiteral] at hliteral
  · refine .kept (fun other hother => ?_) (by rw [hevaluate, valueOf_sequence])
    rw [hends, hlast, Option.map_some, Option.some.injEq] at hother
    rw [← hother, (settled last (List.mem_of_getLast? hlast)).isLiteral_iff, unknown]
    exact Bool.false_ne_true

/-- A sequence whose expressions are all validated is evaluated as the validated expressions one after
the other, and answers with the last. If the last one is a literal, the sequence is that literal, and
nothing is evaluated. If an expression reaches so deep that there is no level left for it in a sequence,
evaluation fails for that. -/
theorem evaluate_sequence (reachable : engine.Reachable) {w : Weight} {expressions trees : List Node}
    (h : List.Forall₂ (fun e t => engine.validate e = .ok t) expressions trees) :
    (∃ err, engine.evaluate scope (.sequence w expressions) = .fail err ∧
      err.rootCause = .depthExceeded engine.optimizer.config.maxDepth ∧
      engine.optimizer.config.maxDepth < Node.deepest expressions) ∨
    engine.SequenceOutcome scope trees (engine.evaluate scope (.sequence w expressions)) := by
  obtain ⟨xs, hxs, rfl⟩ : ∃ xs : List (Reduced Value),
      List.Forall₂ (fun e x => engine.optimizer.reduceAt 0 e = .ok x) expressions xs ∧
        trees = xs.map Reduced.node := by
    induction h with
    | nil => exact ⟨[], .nil, rfl⟩
    | cons head tail ih =>
        obtain ⟨x, hx, rfl⟩ := map_eq_ok_iff.mp head
        obtain ⟨xs, hxs, rfl⟩ := ih
        exact ⟨x :: xs, .cons hx hxs, rfl⟩
  rcases reduceAll_of_validate hxs with hok | ⟨err, herr, hcause, hdeep⟩
  · exact .inr (reachable.coherent.sequenceOutcome hok)
  · refine .inl ⟨err, ?_, hcause, hdeep⟩
    have hfail : engine.validate (.sequence w expressions) = .error err := by
      rw [validate, Optimizer.validate, Optimizer.compile, Optimizer.reduceAt, checkLevel,
        if_neg (Nat.not_lt_zero _), Nat.zero_add, herr]
      rfl
    rw [evaluate, hfail]

end RuleLang.Engine

namespace RuleLang.Sample

/-- A feature that counts its calls in the world and answers with the count before. -/
def tick : Feature Nat where
  describe _ := .ok ⟨1, .scalar "number", none⟩
  argumentCompiler? := none
  call _ _ := .act (· + 1) fun calls => .pure (.number (Number.ofInt calls))

/-- An engine with nothing but that feature. -/
def tickingEngine : Engine Nat :=
  (Engine.new .empty).addFeature "tick" tick

/-- The calls of both expressions are there after validation. -/
theorem evaluate_sequence_ticks : tickingEngine.Reachable ∧ ∃ trees,
    List.Forall₂ (fun e t => tickingEngine.validate e = .ok t) [callOf "tick" [], callOf "tick" []]
      trees ∧
    ((∃ err, tickingEngine.evaluate scope (.sequence 0 [callOf "tick" [], callOf "tick" []]) =
        .fail err ∧ err.rootCause = .depthExceeded tickingEngine.optimizer.config.maxDepth ∧
        tickingEngine.optimizer.config.maxDepth <
          Node.deepest [callOf "tick" [], callOf "tick" []]) ∨
      tickingEngine.SequenceOutcome scope trees
        (tickingEngine.evaluate scope (.sequence 0 [callOf "tick" [], callOf "tick" []]))) := by
  have reachable : tickingEngine.Reachable := .addFeature _ _ (.new _)
  have hvalidate : List.Forall₂ (fun e t => tickingEngine.validate e = .ok t)
      [callOf "tick" [], callOf "tick" []] _ := .cons rfl (.cons rfl .nil)
  exact ⟨reachable, _, hvalidate, Engine.evaluate_sequence reachable hvalidate⟩

/-- A call before a literal: the validated expressions one after the other call the feature once, the
sequence does not. -/
theorem evaluate_tickThenTwo : ∃ trees,
    List.Forall₂ (fun e t => tickingEngine.validate e = .ok t) [callOf "tick" [], numeral 2] trees ∧
    (tickingEngine.evaluate scope (.sequence 0 [callOf "tick" [], numeral 2])).run 0 =
      (.ok (.number (Number.ofInt 2)), 0) ∧
    (Computation.inOrder .undefined (trees.map (tickingEngine.valueOf scope))).run 0 =
      (.ok (.number (Number.ofInt 2)), 1) :=
  ⟨_, .cons rfl (.cons rfl .nil), rfl, rfl⟩

end RuleLang.Sample
