import RuleLang.Proofs.Optimizer.Settled

/-!
# What a validated tree says of itself

Validation answers with a tree and with what is known of it. The second can be read off the first: from
a literal its constant, from a name its entry, from any other node what is known of its parts, with the
weight that the node carries.

* `Optimizer.knowledge?`: what is known of a tree as it stands.
* `Optimizer.Settled.knowledge?_eq`: of a settled tree it is what validation answers with.
-/

namespace RuleLang.Optimizer

variable {V : Type}

mutual

/-- What is known of a tree as it stands. Nothing is rewritten, and each weight is the one that the node
carries. -/
def knowledge? (o : Optimizer V) : Node → Option (Reduction V)
  | .literal w value verbatim =>
    (o.domain.renderLiteral value verbatim).toOption.map fun rendered =>
      ⟨.one value.typeName, w, .literal rendered⟩
  | .identifier w name =>
    match o.feature? name with
    | some _ => some ⟨.one "function", w, .feature name⟩
    | none => (o.schema.get? name).map fun shape => ⟨.one shape.typeName, w, .declared shape⟩
  | .unary w _ operand => do
    let x ← knowledge? o operand
    return .ofComputed x.estimate w none
  | .binary w _ left right => do
    let x ← knowledge? o left
    let y ← knowledge? o right
    return .ofComputed (.union [x.estimate, y.estimate]) w none
  | .logical w _ _ => some (.ofComputed (.one "boolean") w none)
  | .array w _ => some (.ofComputed (.one "array") w none)
  | .conditional w _ consequent alternate => do
    let y ← knowledge? o consequent
    let z ← knowledge? o alternate
    return .ofComputed (.union [y.estimate, z.estimate]) w none
  | .sequence w expressions => do
    let last ← (← allKnowledge? o expressions).getLast?
    return .ofComputed last.estimate w last.shape?
  | .call w callee arguments => do
    let feature ← o.feature? (← callee.identifier?)
    let description ← (feature.describe (← allKnowledge? o arguments)).toOption
    return .ofComputed (.one description.returns.typeName) w (some description.returns)
  | .member w object path => do
    let x ← knowledge? o object
    match x.shape? with
    | some shape =>
      (shape.lookup? path).map fun found => ⟨.one found.typeName, w, .declared found⟩
    | none => return .ofComputed (.one "any") w none

/-- What is known of trees, from left to right. -/
def allKnowledge? (o : Optimizer V) : List Node → Option (List (Reduction V))
  | [] => some []
  | node :: rest => do
    let x ← knowledge? o node
    return x :: (← allKnowledge? o rest)

end

variable {o : Optimizer V}

/-- Trees of which something is known one by one are known together. -/
theorem allKnowledge?_map {xs : List (Reduced V)}
    (h : ∀ x ∈ xs, o.knowledge? x.node = some x.result) :
    o.allKnowledge? (xs.map Reduced.node) = some (xs.map Reduced.result) := by
  induction xs with
  | nil => rfl
  | cons x xs ih =>
      rw [List.forall_mem_cons] at h
      simp [allKnowledge?, h.1, ih h.2]

/-- What is known of a settled tree can be read off the tree. -/
theorem Settled.knowledge?_eq {r : Reduced V} (h : o.Settled r) :
    o.knowledge? r.node = some r.result := by
  induction h with
  | constant constant =>
      obtain ⟨value, verbatim, rendered, hrendered, rfl⟩ := constant
      simp [knowledge?, Node.ofValue, Reduction.ofLiteral, hrendered, Except.toOption]
  | feature known => simp [knowledge?, known]
  | entry free declared unspliced => simp [knowledge?, free, declared]
  | unary settled unknown ih => simp [knowledge?, ih]
  | binary left right unknown ihLeft ihRight => simp [knowledge?, ihLeft, ihRight]
  | logical settled two notLiterals unabsorbed flat ih => rfl
  | array settled notLiterals ih => rfl
  | conditional test consequent alternate unselected unknown ihTest ihConsequent ihAlternate =>
      simp [knowledge?, ihConsequent, ihAlternate]
  | sequence settled ends unknown ih =>
      simp [knowledge?, allKnowledge?_map ih, List.getLast?_map, ends]
  | call known settled compiled described unknown ih =>
      simp [knowledge?, Node.identifier?, known, allKnowledge?_map ih, described, Except.toOption]
  | declaredMember settled unknown declared leads unspliced ih =>
      simp [knowledge?, ih, declared, leads]
  | openMember settled unknown undeclared value ih => simp [knowledge?, ih, undeclared]

end RuleLang.Optimizer
