import RuleLang.Proofs.Node.Induction
import RuleLang.Proofs.Optimizer.Rules

/-!
# The form of validated trees

A validated tree with what is known of it is *settled*: every part of it is settled, no rule applies to
any of its nodes, and what is known of a node follows from what is known of its parts.

* `Optimizer.Settled`: settled trees, kind by kind.
* `Optimizer.settled_of_reduceAt`: validation answers with settled trees.
* `Optimizer.Settled.isLiteral_iff`, `Optimizer.Settled.eq_of_origin`: what is known of a settled tree
  mirrors the tree.
-/

namespace RuleLang

/-- Whether a tree is a chain of an operator. -/
def Node.isChainOf (op : LogicalOp) : Node → Bool
  | .logical _ inner _ => inner = op
  | _ => false

/-- A transparent literal is a literal. -/
theorem Node.isLiteral_of_constant? {node : Node} (h : node.constant?.isSome) : node.isLiteral := by
  cases node <;> simp_all [constant?, isLiteral]

namespace Optimizer

variable {V : Type} {o : Optimizer V}

/-- Validated trees with what is known of them, kind by kind. -/
inductive Settled (o : Optimizer V) : Reduced V → Prop
  | constant {r : Reduced V} (constant : o.IsConstant r) : Settled o r
  | feature {name : String} {feature : StaticFeature V} (known : o.feature? name = some feature) :
      Settled o ⟨.identifier 1 name, ⟨.one "function", 1, .feature name⟩⟩
  | entry {name : String} {shape : Shape} (free : o.feature? name = none)
      (declared : o.schema.get? name = some shape) (unspliced : o.domain.splice shape = none) :
      Settled o ⟨.identifier 1 name, ⟨.one shape.typeName, 1, .declared shape⟩⟩
  | unary {op : UnaryOp} {x : Reduced V} (settled : Settled o x) (unknown : x.result.literal? = none) :
      Settled o ⟨.unary (x.result.weight + 1) op x.node,
        .ofComputed x.result.estimate (x.result.weight + 1) none⟩
  | binary {op : BinaryOp} {x y : Reduced V} (left : Settled o x) (right : Settled o y)
      (unknown : x.result.literal? = none ∨ y.result.literal? = none) :
      Settled o ⟨.binary (x.result.weight + y.result.weight + 1) op x.node y.node,
        .ofComputed (.union [x.result.estimate, y.result.estimate])
          (x.result.weight + y.result.weight + 1) none⟩
  | logical {op : LogicalOp} {xs : List (Reduced V)} (settled : ∀ x ∈ xs, Settled o x)
      (two : 2 ≤ xs.length) (notLiterals : ¬ ∀ x ∈ xs, x.node.isLiteral)
      (unabsorbed : ∀ x ∈ xs, ¬ o.isAbsorbed x)
      (flat : o.config.flattening → ∀ x ∈ xs, ¬ x.node.isChainOf op) :
      Settled o ⟨.logical (Weight.sum (xs.map fun x => x.node.weight) + 1) op (xs.map Reduced.node),
        .ofComputed (.one "boolean") (Weight.sum (xs.map fun x => x.node.weight) + 1) none⟩
  | array {xs : List (Reduced V)} (settled : ∀ x ∈ xs, Settled o x)
      (notLiterals : ¬ ∀ x ∈ xs, x.node.isLiteral) :
      Settled o ⟨.array (totalWeight xs + 1) (xs.map Reduced.node),
        .ofComputed (.one "array") (totalWeight xs + 1) none⟩
  | conditional {x y z : Reduced V} (test : Settled o x) (consequent : Settled o y)
      (alternate : Settled o z) (unselected : x.node.constant? = none)
      (unknown : x.result.literal? = none ∨ y.result.literal? = none ∨ z.result.literal? = none) :
      Settled o ⟨.conditional (x.result.weight + Weight.max y.result.weight z.result.weight + 1)
          x.node y.node z.node,
        .ofComputed (.union [y.result.estimate, z.result.estimate])
          (x.result.weight + Weight.max y.result.weight z.result.weight + 1) none⟩
  | sequence {xs : List (Reduced V)} {last : Reduced V} (settled : ∀ x ∈ xs, Settled o x)
      (ends : xs.getLast? = some last) (unknown : last.result.literal? = none) :
      Settled o ⟨.sequence (totalWeight xs + 1) (xs.map Reduced.node),
        .ofComputed last.result.estimate (totalWeight xs + 1) last.result.shape?⟩
  | call {name : String} {feature : StaticFeature V} {xs : List (Reduced V)}
      {description : Description V} (known : o.feature? name = some feature)
      (settled : ∀ x ∈ xs, Settled o x)
      (compiled : feature.argumentCompiler?.isSome →
        ∀ x ∈ xs, ∃ text, x.node = .ofValue (.string text) true)
      (described : feature.describe (xs.map Reduced.result) = .ok description)
      (unknown : description.value? = none) :
      Settled o ⟨.call (1 + 1 + Weight.sum (xs.map fun x => x.result.weight) + description.weight)
          (.identifier 1 name) (xs.map Reduced.node),
        .ofComputed (.one description.returns.typeName)
          (1 + 1 + Weight.sum (xs.map fun x => x.result.weight) + description.weight)
          (some description.returns)⟩
  | declaredMember {x : Reduced V} {path : Path} {shape found : Shape} (settled : Settled o x)
      (unknown : x.node.literal? = none) (declared : x.result.shape? = some shape)
      (leads : shape.lookup? path = some found) (unspliced : o.domain.splice found = none) :
      Settled o ⟨.member (x.result.weight + 1) x.node path,
        ⟨.one found.typeName, x.result.weight + 1, .declared found⟩⟩
  | openMember {x : Reduced V} {path : Path} (settled : Settled o x) (unknown : x.node.literal? = none)
      (undeclared : x.result.shape? = none) (value : ∀ name, x.result.origin ≠ .feature name) :
      Settled o ⟨.member (x.result.weight + 1) x.node path,
        .ofComputed (.one "any") (x.result.weight + 1) none⟩

/-! ### The parts of a merged chain -/

/-- A tree that is no chain of the operator, or stands where chains are not merged, contributes
itself. -/
theorem flatten_of_not {op : LogicalOp} {node : Node}
    (h : ¬ (o.config.flattening ∧ node.isChainOf op)) : o.flatten op node = [node] := by
  unfold flatten
  split
  · rename_i w inner operands
    rw [if_neg]
    simpa [Node.isChainOf] using h
  · rfl

/-- What an operand has to fulfil to stand in a validated chain. -/
structure IsPart (o : Optimizer V) (op : LogicalOp) (x : Reduced V) : Prop where
  settled : Settled o x
  unabsorbed : ¬ o.isAbsorbed x
  flat : o.config.flattening → ¬ x.node.isChainOf op

/-- A settled operand contributes parts to an enclosing chain, and only a literal contributes
nothing but literals. -/
theorem Settled.flatten (op : LogicalOp) {x : Reduced V} (settled : Settled o x)
    (unabsorbed : ¬ o.isAbsorbed x) :
    ∃ parts : List (Reduced V), o.flatten op x.node = parts.map Reduced.node ∧
      (∀ p ∈ parts, o.IsPart op p) ∧ 1 ≤ parts.length ∧
      ((∀ p ∈ parts, p.node.isLiteral) → x.node.isLiteral) := by
  by_cases hchain : o.config.flattening ∧ x.node.isChainOf op
  · obtain ⟨hflattening, hchain⟩ := hchain
    cases settled with
    | @logical inner xs settled two notLiterals hparts flat =>
        have hop : inner = op := by simpa [Node.isChainOf] using hchain
        subst hop
        refine ⟨xs, by simp [Optimizer.flatten, hflattening], fun p hp => ?_, by omega, ?_⟩
        · exact ⟨settled p hp, hparts p hp, fun h => flat h p hp⟩
        · intro h
          exact absurd h notLiterals
    | constant constant =>
        obtain ⟨value, verbatim, rendered, -, rfl⟩ := constant
        simp [Node.ofValue, Node.isChainOf] at hchain
    | _ => simp [Node.isChainOf] at hchain
  · refine ⟨[x], by rw [flatten_of_not hchain, List.map_singleton], ?_, Nat.le_refl 1, ?_⟩
    · intro p hp
      rw [List.mem_singleton.mp hp]
      exact ⟨settled, unabsorbed, fun hflattening h => hchain ⟨hflattening, h⟩⟩
    · intro h
      exact h x List.mem_cons_self

/-- Settled operands contribute parts to an enclosing chain, at least as many as they are. -/
theorem exists_parts (op : LogicalOp) {xs : List (Reduced V)} (settled : ∀ x ∈ xs, Settled o x)
    (unabsorbed : ∀ x ∈ xs, ¬ o.isAbsorbed x) :
    ∃ parts : List (Reduced V), (xs.flatMap fun x => o.flatten op x.node) = parts.map Reduced.node ∧
      (∀ p ∈ parts, o.IsPart op p) ∧ xs.length ≤ parts.length ∧
      ((∀ p ∈ parts, p.node.isLiteral) → ∀ x ∈ xs, x.node.isLiteral) := by
  induction xs with
  | nil => exact ⟨[], rfl, fun p hp => absurd hp List.not_mem_nil, Nat.le_refl 0, fun h => h⟩
  | cons x xs ih =>
      rw [List.forall_mem_cons] at settled unabsorbed
      obtain ⟨front, hfront, hparts, hone, hliteral⟩ := settled.1.flatten op unabsorbed.1
      obtain ⟨back, hback, hrest, hlength, hliterals⟩ := ih settled.2 unabsorbed.2
      refine ⟨front ++ back, ?_, ?_, ?_, ?_⟩
      · rw [List.flatMap_cons, hfront, hback, List.map_append]
      · exact List.forall_mem_append.mpr ⟨hparts, hrest⟩
      · rw [List.length_cons, List.length_append]
        omega
      · intro h
        rw [List.forall_mem_append] at h
        exact List.forall_mem_cons.mpr ⟨hliteral h.1, hliterals h.2⟩

/-! ### Validation answers with settled trees -/

/-- A validated literal is settled. -/
theorem settled_of_literal {value : Value} {verbatim : Bool} {r : Reduced V}
    (h : o.literal value verbatim = .ok r) : Settled o r :=
  .constant (isConstant_of_literal h)

/-- What folds is settled. -/
theorem settled_of_fold {value : V} {r : Reduced V} (h : o.fold value = .ok r) : Settled o r :=
  .constant (isConstant_of_fold h)

/-- The operands that absorption leaves are not absorbed. -/
theorem mem_remaining {operands : List (Reduced V)} {x : Reduced V} :
    x ∈ o.remaining operands ↔ x ∈ operands ∧ ¬ o.isAbsorbed x := by
  simp [remaining, List.mem_filter]

/-- What a chain over settled operands becomes is settled. -/
theorem ChainOutcome.settled {op : LogicalOp} {operands : List (Reduced V)} {r : Reduced V}
    (h : ChainOutcome o op operands r) (settled : ∀ x ∈ operands, Settled o x) : Settled o r := by
  cases h with
  | folded constant fold => exact settled_of_fold fold
  | decided mem decisive => exact settled r mem
  | neutral undecided absorbed literal => exact settled_of_literal literal
  | single undecided remaining =>
      have hmem : r ∈ o.remaining operands := by simp [remaining]
      exact settled r (mem_remaining.mp hmem).1
  | rendered undecided two literals fold => exact settled_of_fold fold
  | merged nodes undecided two notLiterals merge =>
      obtain ⟨parts, hnodes, hparts, hlength, hliterals⟩ := exists_parts op
        (fun x hx => settled x (mem_remaining.mp hx).1) (fun x hx => (mem_remaining.mp hx).2)
      rw [← merge] at hnodes
      subst hnodes
      rw [List.map_map]
      exact .logical (fun p hp => (hparts p hp).settled) (by omega)
        (fun h => notLiterals (hliterals h)) (fun p hp => (hparts p hp).unabsorbed)
        (fun hflattening p hp => (hparts p hp).flat hflattening)

/-- What is known to be a feature is its name. -/
theorem Settled.eq_of_origin {x : Reduced V} {name : String} (h : Settled o x)
    (origin : x.result.origin = .feature name) :
    x = ⟨.identifier 1 name, ⟨.one "function", 1, .feature name⟩⟩ := by
  cases h with
  | feature known =>
      cases origin
      rfl
  | constant constant =>
      obtain ⟨value, verbatim, rendered, -, rfl⟩ := constant
      cases origin
  | _ => cases origin

/-- What is known of a settled tree is a constant exactly when the tree is a literal. -/
theorem Settled.isLiteral_iff {x : Reduced V} (h : Settled o x) :
    x.node.isLiteral ↔ x.result.literal?.isSome := by
  cases h with
  | constant constant =>
      obtain ⟨value, verbatim, rendered, -, rfl⟩ := constant
      simp [Node.ofValue, Node.isLiteral, Reduction.ofLiteral, Reduction.literal?]
  | _ => simp [Node.isLiteral, Reduction.ofComputed, Reduction.literal?]

/-- An argument that is compiled or validated is settled. -/
theorem ArgumentReduces.settled {feature : StaticFeature V} {level : Nat} {argument : Node}
    {r : Reduced V} (h : o.ArgumentReduces feature level argument r)
    (validated : ∀ {r : Reduced V}, o.reduceAt level argument = .ok r → Settled o r) :
    Settled o r ∧
      (feature.argumentCompiler?.isSome → ∃ text, r.node = .ofValue (.string text) true) := by
  unfold ArgumentReduces at h
  split at h
  · obtain ⟨text, -, -, h⟩ := compiledArgument_eq_ok_iff.mp h
    refine ⟨settled_of_literal h, fun _ => ⟨text, ?_⟩⟩
    obtain ⟨rendered, -, rfl⟩ := literal_eq_ok_iff.mp h
    rfl
  · rename_i hcompiler
    exact ⟨validated h, fun h => absurd h (by simp [hcompiler])⟩

/-- Validation answers with settled trees. -/
theorem settled_of_reduceAt {level : Nat} {node : Node} {r : Reduced V}
    (h : o.reduceAt level node = .ok r) : Settled o r := by
  induction node generalizing level r with
  | literal w value verbatim => exact settled_of_literal (reduceAt_literal_iff.mp h).2
  | identifier w name =>
      rcases identifier_eq_ok (reduceAt_identifier_iff.mp h).2 with
        ⟨feature, known, rfl⟩ | ⟨shape, free, declared, ⟨value, -, hfold⟩ | ⟨unspliced, rfl⟩⟩
      · exact .feature known
      · exact settled_of_fold hfold
      · exact .entry free declared unspliced
  | unary w op operand ih =>
      obtain ⟨-, x, hx, h⟩ := reduceAt_unary_iff.mp h
      rcases unary_eq_ok h with ⟨value, -, hfold⟩ | ⟨unknown, rfl⟩
      · exact settled_of_fold hfold
      · exact .unary (ih hx) unknown
  | binary w op left right ihLeft ihRight =>
      obtain ⟨-, x, hx, y, hy, h⟩ := reduceAt_binary_iff.mp h
      rcases binary_eq_ok h with ⟨a, b, value, -, -, -, hfold⟩ | ⟨unknown, rfl⟩
      · exact settled_of_fold hfold
      · exact .binary (ihLeft hx) (ihRight hy) unknown
  | logical w op operands ih =>
      obtain ⟨-, xs, hxs, h⟩ := reduceAt_logical_iff.mp h
      refine (logical_eq_ok h).settled ?_
      intro x hx
      obtain ⟨operand, hoperand, hreduce⟩ := exists_of_mem_forall₂ hxs hx
      exact ih operand hoperand hreduce
  | array w elements ih =>
      obtain ⟨-, xs, hxs, h⟩ := reduceAt_array_iff.mp h
      rcases array_eq_ok h with ⟨-, hliteral⟩ | ⟨values, -, -, hfold⟩ | ⟨notLiterals, rfl⟩
      · exact settled_of_literal hliteral
      · exact settled_of_fold hfold
      · refine .array ?_ notLiterals
        intro x hx
        obtain ⟨element, helement, hreduce⟩ := exists_of_mem_forall₂ hxs hx
        exact ih element helement hreduce
  | conditional w test consequent alternate ihTest ihConsequent ihAlternate =>
      obtain ⟨-, x, hx, y, hy, z, hz, h⟩ := reduceAt_conditional_iff.mp h
      rcases conditional_eq_ok h with
        ⟨value, -, rfl⟩ | ⟨t, c, a, -, -, -, -, hfold⟩ | ⟨unselected, unknown, rfl⟩
      · split
        · exact ihConsequent hy
        · exact ihAlternate hz
      · exact settled_of_fold hfold
      · exact .conditional (ihTest hx) (ihConsequent hy) (ihAlternate hz) unselected unknown
  | sequence w expressions ih =>
      obtain ⟨-, xs, hxs, h⟩ := reduceAt_sequence_iff.mp h
      have settled : ∀ x ∈ xs, Settled o x := fun x hx => by
        obtain ⟨expression, hexpression, hreduce⟩ := exists_of_mem_forall₂ hxs hx
        exact ih expression hexpression hreduce
      rcases sequence_eq_ok h with ⟨-, hliteral⟩ | ⟨hlast, -⟩ | ⟨last, ends, unknown, rfl⟩
      · exact settled_of_literal hliteral
      · exact settled r (List.mem_of_getLast? hlast)
      · exact .sequence settled ends unknown
  | call w callee arguments ihCallee ih =>
      obtain ⟨-, x, hx, feature, hfeature, xs, hxs, h⟩ := reduceAt_call_iff.mp h
      obtain ⟨name, origin, known⟩ := callee?_eq_some hfeature
      have hcallee := (ihCallee hx).eq_of_origin origin
      subst hcallee
      have settled : ∀ x ∈ xs, Settled o x ∧
          (feature.argumentCompiler?.isSome → ∃ text, x.node = .ofValue (.string text) true) := by
        intro x hx
        obtain ⟨argument, hargument, hreduce⟩ := exists_of_mem_forall₂ hxs hx
        exact hreduce.settled fun h => ih argument hargument h
      obtain ⟨description, described, ⟨value, -, hfold⟩ | ⟨unknown, rfl⟩⟩ := call_eq_ok h
      · exact settled_of_fold hfold
      · exact .call known (fun x hx => (settled x hx).1) (fun h x hx => (settled x hx).2 h) described
          unknown
  | member w object path ih =>
      obtain ⟨-, x, hx, h⟩ := reduceAt_member_iff.mp h
      rcases member_eq_ok h with ⟨value, found, -, -, hliteral⟩ |
        ⟨shape, found, unknown, declared, leads, ⟨value, -, hfold⟩ | ⟨unspliced, rfl⟩⟩ |
        ⟨unknown, undeclared, noFeature, rfl⟩
      · exact settled_of_literal hliteral
      · exact settled_of_fold hfold
      · exact .declaredMember (ih hx) unknown declared leads unspliced
      · exact .openMember (ih hx) unknown undeclared noFeature

end Optimizer

end RuleLang
