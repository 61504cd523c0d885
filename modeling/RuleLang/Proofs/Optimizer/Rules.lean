import RuleLang.Optimizer.Reduce
import RuleLang.Proofs.Success

/-!
# What each rule can answer

For every kind of node, all the ways in which its rule succeeds: with a folded constant, with one of the
subtrees, or with the node itself over its subtrees. Later proofs cite these statements and never open a
rule again.

* `Optimizer.IsConstant`: a literal with what is known of it.
* `Optimizer.ChainOutcome`: what a chain over validated operands can become.
* `Optimizer.reduceAt_unary_iff` and the like: a node at a nesting level succeeds when its subtrees
  and its rule do.
-/

namespace RuleLang.Optimizer

variable {V : Type} {o : Optimizer V} {r : Reduced V}

/-! ### Constants -/

/-- A literal with its rendered constant. -/
def IsConstant (o : Optimizer V) (r : Reduced V) : Prop :=
  ∃ value verbatim rendered, o.domain.renderLiteral value verbatim = .ok rendered ∧
    r = ⟨.ofValue value verbatim, .ofLiteral (.one value.typeName) rendered⟩

/-- A literal is validated exactly when it can be rendered. -/
theorem literal_eq_ok_iff {value : Value} {verbatim : Bool} :
    o.literal value verbatim = .ok r ↔
      ∃ rendered, o.domain.renderLiteral value verbatim = .ok rendered ∧
        r = ⟨.ofValue value verbatim, .ofLiteral (.one value.typeName) rendered⟩ := by
  unfold literal
  cases h : o.domain.renderLiteral value verbatim with
  | error e => simp [fault]
  | ok rendered => simp [eq_comm]

/-- A validated literal is a constant. -/
theorem isConstant_of_literal {value : Value} {verbatim : Bool} (h : o.literal value verbatim = .ok r) :
    o.IsConstant r := by
  obtain ⟨rendered, hrendered, rfl⟩ := literal_eq_ok_iff.mp h
  exact ⟨value, verbatim, rendered, hrendered, rfl⟩

/-- What folds is a constant. -/
theorem isConstant_of_fold {value : V} (h : o.fold value = .ok r) : o.IsConstant r :=
  isConstant_of_literal h

/-! ### The rules of single nodes -/

/-- A name is a feature, or an entry of the schema that is spliced or stays. -/
theorem identifier_eq_ok {name : String} (h : o.identifier name = .ok r) :
    (∃ feature, o.feature? name = some feature ∧
        r = ⟨.identifier 1 name, ⟨.one "function", 1, .feature name⟩⟩) ∨
      ∃ shape, o.feature? name = none ∧ o.schema.get? name = some shape ∧
        ((∃ value, o.domain.splice shape = some value ∧ o.fold value = .ok r) ∨
          (o.domain.splice shape = none ∧
            r = ⟨.identifier 1 name, ⟨.one shape.typeName, 1, .declared shape⟩⟩)) := by
  unfold identifier at h
  split at h
  · rename_i feature hfeature
    exact .inl ⟨feature, hfeature, (Except.ok.inj h).symm⟩
  · rename_i hfeature
    split at h
    · cases h
    · rename_i shape hshape
      refine .inr ⟨shape, hfeature, hshape, ?_⟩
      split at h
      · rename_i value hsplice
        exact .inl ⟨value, hsplice, h⟩
      · rename_i hsplice
        exact .inr ⟨hsplice, (Except.ok.inj h).symm⟩

/-- An operator in front of a constant folds; in front of another operand it stays. -/
theorem unary_eq_ok {op : UnaryOp} {operand : Reduced V} (h : o.unary op operand = .ok r) :
    (∃ value, operand.result.literal? = some value ∧ o.fold (o.domain.unary op value) = .ok r) ∨
      (operand.result.literal? = none ∧
        r = ⟨.unary (operand.result.weight + 1) op operand.node,
          .ofComputed operand.result.estimate (operand.result.weight + 1) none⟩) := by
  unfold unary at h
  split at h
  · rename_i value hvalue
    exact .inl ⟨value, hvalue, h⟩
  · rename_i hvalue
    exact .inr ⟨hvalue, (Except.ok.inj h).symm⟩

/-- An operator between two constants folds, where the domain has it; otherwise it stays. -/
theorem binary_eq_ok {op : BinaryOp} {left right : Reduced V} (h : o.binary op left right = .ok r) :
    (∃ a b value, left.result.literal? = some a ∧ right.result.literal? = some b ∧
        o.domain.binary op a b = .ok value ∧ o.fold value = .ok r) ∨
      ((left.result.literal? = none ∨ right.result.literal? = none) ∧
        r = ⟨.binary (left.result.weight + right.result.weight + 1) op left.node right.node,
          .ofComputed (.union [left.result.estimate, right.result.estimate])
            (left.result.weight + right.result.weight + 1) none⟩) := by
  unfold binary at h
  cases hleft : left.result.literal? with
  | none =>
      simp only [hleft] at h
      exact .inr ⟨.inl rfl, (Except.ok.inj h).symm⟩
  | some a =>
      cases hright : right.result.literal? with
      | none =>
          simp only [hleft, hright] at h
          exact .inr ⟨.inr rfl, (Except.ok.inj h).symm⟩
      | some b =>
          simp only [hleft, hright] at h
          split at h
          · rename_i value hvalue
            exact .inl ⟨a, b, value, rfl, rfl, hvalue, h⟩
          · cases h

/-- An array of constants is a literal, one of literals folds in the domain, and any other one stays. -/
theorem array_eq_ok {weight : Weight} {elements : List (Reduced V)}
    (h : o.array weight elements = .ok r) :
    ((∀ x ∈ elements, x.node.constant?.isSome) ∧
        o.literal (.array ((elements.map Reduced.node).filterMap Node.constant?)) false = .ok r) ∨
      (∃ values, (∀ x ∈ elements, x.node.isLiteral) ∧
        (elements.map Reduced.node).mapM o.element = .ok values ∧
        o.fold (o.domain.array values) = .ok r) ∨
      (¬ (∀ x ∈ elements, x.node.isLiteral) ∧
        r = ⟨.array (totalWeight elements + 1) (elements.map Reduced.node),
          .ofComputed (.one "array") (totalWeight elements + 1) none⟩) := by
  unfold array at h
  simp only [List.all_map, List.all_eq_true, Function.comp_apply] at h
  split at h
  · rename_i hconstant
    exact .inl ⟨hconstant, h⟩
  · split at h
    · rename_i hliteral
      split at h
      · rename_i values hvalues
        exact .inr (.inl ⟨values, hliteral, hvalues, h⟩)
      · cases h
    · rename_i hliteral
      exact .inr (.inr ⟨hliteral, (Except.ok.inj h).symm⟩)

/-- A constant test selects its branch; an opaque test between literals folds in the domain; otherwise
the conditional stays. -/
theorem conditional_eq_ok {test consequent alternate : Reduced V}
    (h : o.conditional test consequent alternate = .ok r) :
    (∃ value, test.node.constant? = some value ∧
        r = if value.isTruthy then consequent else alternate) ∨
      (∃ t c a, test.node.constant? = none ∧ test.result.literal? = some t ∧
        consequent.result.literal? = some c ∧ alternate.result.literal? = some a ∧
        o.fold (o.domain.conditional t c a) = .ok r) ∨
      (test.node.constant? = none ∧
        (test.result.literal? = none ∨ consequent.result.literal? = none ∨
          alternate.result.literal? = none) ∧
        r = ⟨.conditional (test.result.weight +
              Weight.max consequent.result.weight alternate.result.weight + 1)
              test.node consequent.node alternate.node,
          .ofComputed (.union [consequent.result.estimate, alternate.result.estimate])
            (test.result.weight + Weight.max consequent.result.weight alternate.result.weight + 1)
            none⟩) := by
  unfold conditional at h
  cases hconstant : test.node.constant? with
  | some value =>
      simp only [hconstant] at h
      exact .inl ⟨value, rfl, (Except.ok.inj h).symm⟩
  | none =>
      simp only [hconstant] at h
      refine .inr ?_
      cases ht : test.result.literal? with
      | none => simp only [ht] at h; exact .inr ⟨rfl, .inl rfl, (Except.ok.inj h).symm⟩
      | some t =>
          cases hc : consequent.result.literal? with
          | none => simp only [ht, hc] at h; exact .inr ⟨rfl, .inr (.inl rfl), (Except.ok.inj h).symm⟩
          | some c =>
              cases ha : alternate.result.literal? with
              | none =>
                  simp only [ht, hc, ha] at h
                  exact .inr ⟨rfl, .inr (.inr rfl), (Except.ok.inj h).symm⟩
              | some a =>
                  simp only [ht, hc, ha] at h
                  exact .inl ⟨t, c, a, rfl, rfl, rfl, rfl, h⟩

/-- An empty sequence is an absent value, one that ends in a constant is that constant, and any
other one stays. -/
theorem sequence_eq_ok {expressions : List (Reduced V)} (h : o.sequence expressions = .ok r) :
    (expressions = [] ∧ o.literal .undefined false = .ok r) ∨
      (expressions.getLast? = some r ∧ ∃ value, r.result.literal? = some value) ∨
      ∃ last, expressions.getLast? = some last ∧ last.result.literal? = none ∧
        r = ⟨.sequence (totalWeight expressions + 1) (expressions.map Reduced.node),
          .ofComputed last.result.estimate (totalWeight expressions + 1) last.result.shape?⟩ := by
  unfold sequence at h
  split at h
  · rename_i hlast
    exact .inl ⟨List.getLast?_eq_none_iff.mp hlast, h⟩
  · rename_i last hlast
    split at h
    · rename_i value hvalue
      cases h
      exact .inr (.inl ⟨hlast, value, hvalue⟩)
    · rename_i hvalue
      exact .inr (.inr ⟨last, hlast, hvalue, (Except.ok.inj h).symm⟩)

/-- The callee of a call is a feature under its name. -/
theorem callee?_eq_some {callee : Reduced V} {feature : StaticFeature V}
    (h : o.callee? callee = some feature) :
    ∃ name, callee.result.origin = .feature name ∧ o.feature? name = some feature := by
  unfold callee? at h
  split at h
  · rename_i name horigin
    exact ⟨name, horigin, h⟩
  · cases h

/-- A call whose description holds a constant folds; any other call stays. -/
theorem call_eq_ok {weight : Weight} {feature : StaticFeature V} {callee : Reduced V}
    {arguments : List (Reduced V)} (h : o.call weight feature callee arguments = .ok r) :
    ∃ description, feature.describe (arguments.map Reduced.result) = .ok description ∧
      ((∃ value, description.value? = some value ∧ o.fold value = .ok r) ∨
        (description.value? = none ∧
          r = ⟨.call (callee.result.weight + 1 +
                Weight.sum (arguments.map fun argument => argument.result.weight) + description.weight)
                callee.node (arguments.map Reduced.node),
            .ofComputed (.one description.returns.typeName) (callee.result.weight + 1 +
                Weight.sum (arguments.map fun argument => argument.result.weight) + description.weight)
              (some description.returns)⟩)) := by
  unfold call at h
  dsimp only at h
  split at h
  · cases h
  · rename_i description hdescription
    refine ⟨description, hdescription, ?_⟩
    split at h
    · rename_i value hvalue
      exact .inl ⟨value, hvalue, h⟩
    · rename_i hvalue
      exact .inr ⟨hvalue, (Except.ok.inj h).symm⟩

/-- A member of a declared shape is spliced or stays. -/
theorem declaredMember_eq_ok {node : Node} {object : Reduced V} {shape : Shape} {path : Path}
    (h : o.declaredMember node object shape path = .ok r) :
    ∃ found, shape.lookup? path = some found ∧
      ((∃ value, o.domain.splice found = some value ∧ o.fold value = .ok r) ∨
        (o.domain.splice found = none ∧
          r = ⟨.member (object.result.weight + 1) object.node path,
            ⟨.one found.typeName, object.result.weight + 1, .declared found⟩⟩)) := by
  unfold declaredMember at h
  split at h
  · cases h
  · rename_i found hfound
    refine ⟨found, hfound, ?_⟩
    split at h
    · rename_i value hsplice
      exact .inl ⟨value, hsplice, h⟩
    · rename_i hsplice
      exact .inr ⟨hsplice, (Except.ok.inj h).symm⟩

/-- A member of a literal folds, one of a declared shape is spliced or stays, and any other one stays
without a shape. -/
theorem member_eq_ok {weight : Weight} {object : Reduced V} {path : Path}
    (h : o.member weight object path = .ok r) :
    (∃ value found, object.node.literal? = some (value, false) ∧ value.getPath? path = some found ∧
        o.literal found false = .ok r) ∨
      (∃ shape found, object.node.literal? = none ∧ object.result.shape? = some shape ∧
        shape.lookup? path = some found ∧
        ((∃ value, o.domain.splice found = some value ∧ o.fold value = .ok r) ∨
          (o.domain.splice found = none ∧
            r = ⟨.member (object.result.weight + 1) object.node path,
              ⟨.one found.typeName, object.result.weight + 1, .declared found⟩⟩))) ∨
      (object.node.literal? = none ∧ object.result.shape? = none ∧
        (∀ name, object.result.origin ≠ .feature name) ∧
        r = ⟨.member (object.result.weight + 1) object.node path,
          .ofComputed (.one "any") (object.result.weight + 1) none⟩) := by
  unfold member at h
  dsimp only at h
  split at h
  · rename_i value verbatim hliteral
    unfold literalMember at h
    split at h
    · cases h
    · rename_i hverbatim
      split at h
      · rename_i found hfound
        refine .inl ⟨value, found, ?_, hfound, h⟩
        simpa [hverbatim] using hliteral
      · cases h
  · rename_i hliteral
    refine .inr ?_
    split at h
    · rename_i shape horigin
      obtain ⟨found, hfound, hcases⟩ := declaredMember_eq_ok h
      exact .inl ⟨shape, found, hliteral, by simp [Reduction.shape?, horigin], hfound, hcases⟩
    · rename_i shape horigin
      obtain ⟨found, hfound, hcases⟩ := declaredMember_eq_ok h
      exact .inl ⟨shape, found, hliteral, by simp [Reduction.shape?, horigin], hfound, hcases⟩
    · cases h
    · rename_i hdeclared hcomputed hfeature
      refine .inr ⟨hliteral, ?_, hfeature, (Except.ok.inj h).symm⟩
      unfold Reduction.shape?
      split
      · rename_i shape horigin
        exact absurd horigin (hdeclared shape)
      · rename_i shape? horigin
        cases shape? with
        | none => rfl
        | some shape => exact absurd horigin (hcomputed shape)
      · rfl

/-! ### Chains -/

/-- The operands of a chain that absorption leaves. -/
def remaining (o : Optimizer V) (operands : List (Reduced V)) : List (Reduced V) :=
  operands.filter fun operand => !o.isAbsorbed operand

/-- What a chain over validated operands can become. -/
inductive ChainOutcome (o : Optimizer V) (op : LogicalOp) (operands : List (Reduced V)) :
    Reduced V → Prop
  /-- All operands are constants. -/
  | folded {r : Reduced V} (constant : ∀ x ∈ operands, x.node.constant?.isSome)
      (fold : o.fold (o.domain.logical op (constants operands)) = .ok r) : ChainOutcome o op operands r
  /-- A constant decides the chain. -/
  | decided {r : Reduced V} (mem : r ∈ operands) (decisive : o.isDecisive op r) :
      ChainOutcome o op operands r
  /-- All operands are absorbed. -/
  | neutral {r : Reduced V} (undecided : ∀ x ∈ operands, ¬ o.isDecisive op x)
      (absorbed : o.remaining operands = []) (literal : o.literal (.bool op.neutral) false = .ok r) :
      ChainOutcome o op operands r
  /-- All operands but one are absorbed. -/
  | single {r : Reduced V} (undecided : ∀ x ∈ operands, ¬ o.isDecisive op x)
      (remaining : o.remaining operands = [r]) : ChainOutcome o op operands r
  /-- The operands that remain are literals, not all of them transparent. -/
  | rendered {r : Reduced V} (undecided : ∀ x ∈ operands, ¬ o.isDecisive op x)
      (two : 2 ≤ (o.remaining operands).length)
      (literals : ∀ x ∈ o.remaining operands, x.node.isLiteral)
      (fold : o.fold (o.domain.logical op (constants (o.remaining operands))) = .ok r) :
      ChainOutcome o op operands r
  /-- A chain remains, merged with the chains inside it. -/
  | merged (nodes : List Node) (undecided : ∀ x ∈ operands, ¬ o.isDecisive op x)
      (two : 2 ≤ (o.remaining operands).length)
      (notLiterals : ¬ ∀ x ∈ o.remaining operands, x.node.isLiteral)
      (merge : nodes = (o.remaining operands).flatMap fun x => o.flatten op x.node) :
      ChainOutcome o op operands
        ⟨.logical (Weight.sum (nodes.map Node.weight) + 1) op nodes,
          .ofComputed (.one "boolean") (Weight.sum (nodes.map Node.weight) + 1) none⟩

/-- A chain succeeds in one of these ways. -/
theorem logical_eq_ok {op : LogicalOp} {operands : List (Reduced V)}
    (h : o.logical op operands = .ok r) : ChainOutcome o op operands r := by
  unfold logical at h
  split at h
  · rename_i hconstant
    exact .folded (List.all_eq_true.mp hconstant) h
  · split at h
    · rename_i deciding hdeciding
      cases h
      exact .decided (List.mem_of_find?_eq_some hdeciding) (List.find?_some hdeciding)
    · rename_i hundecided
      have undecided : ∀ x ∈ operands, ¬ o.isDecisive op x := List.find?_eq_none.mp hundecided
      split at h
      · rename_i hkept
        exact .neutral undecided hkept h
      · rename_i single hkept
        cases h
        exact .single undecided hkept
      · rename_i kept hnil hsingle
        have two : 2 ≤ (o.remaining operands).length := by
          match hkept : o.remaining operands with
          | [] => exact absurd hkept hnil
          | [single] => exact absurd hkept (hsingle single)
          | _ :: _ :: _ => simp
        split at h
        · rename_i hliterals
          exact .rendered undecided two (List.all_eq_true.mp hliterals) h
        · rename_i hliterals
          cases h
          exact .merged _ undecided two (fun hall => hliterals (List.all_eq_true.mpr hall)) rfl

/-! ### Nodes at a nesting level -/

/-- A node may stand at a level up to the limit. -/
theorem checkLevel_bind_eq_ok_iff {α : Type} {node : Node} {level : Nat}
    {next : Unit → Except RuleError α}
    {a : α} :
    (o.checkLevel node level >>= next) = .ok a ↔ level ≤ o.config.maxDepth ∧ next () = .ok a := by
  unfold checkLevel
  split
  · rename_i h
    exact ⟨fun h => (by cases h), fun ⟨hle, _⟩ => absurd hle (Nat.not_le.mpr h)⟩
  · rename_i h
    exact ⟨fun hnext => ⟨Nat.not_lt.mp h, hnext⟩, fun ⟨_, hnext⟩ => hnext⟩

/-- The validation of trees is a traversal. -/
theorem reduceAll_eq_mapM (level : Nat) (nodes : List Node) :
    o.reduceAll level nodes = nodes.mapM (o.reduceAt level) := by
  induction nodes with
  | nil => rw [reduceAll]; rfl
  | cons node rest ih => rw [reduceAll, List.mapM_cons, ih]

/-- Trees are validated one by one. -/
theorem reduceAll_eq_ok_iff {level : Nat} {nodes : List Node} {rs : List (Reduced V)} :
    o.reduceAll level nodes = .ok rs ↔
      List.Forall₂ (fun n r => o.reduceAt level n = .ok r) nodes rs := by
  rw [reduceAll_eq_mapM, mapM_eq_ok_iff]

/-- What an argument becomes: compiled text if the feature has a compiler, else the validated
argument. -/
def ArgumentReduces (o : Optimizer V) (feature : StaticFeature V) (level : Nat) (argument : Node)
    (r : Reduced V) : Prop :=
  match feature.argumentCompiler? with
  | some compile => o.compiledArgument compile argument level = .ok r
  | none => o.reduceAt level argument = .ok r

/-- A compiled argument is its text as a verbatim literal. -/
theorem compiledArgument_eq_ok_iff {compile : Node → Except RuleError String} {argument : Node}
    {level : Nat} :
    o.compiledArgument compile argument level = .ok r ↔
      ∃ text, compile argument = .ok text ∧ level ≤ o.config.maxDepth ∧
        o.literal (.string text) true = .ok r := by
  unfold compiledArgument
  cases h : compile argument with
  | error e => simp
  | ok text =>
      simp only [checkLevel_bind_eq_ok_iff, Except.ok.injEq, exists_eq_left']

variable {level : Nat} {w : Weight}

-- The equations of the reduction are derived once, ahead of the lemmas that rewrite with them.
attribute [local simp] reduceAt

/-- A literal is validated by its rule. -/
@[simp] theorem reduceAt_literal_iff {value : Value} {verbatim : Bool} :
    o.reduceAt level (.literal w value verbatim) = .ok r ↔
      level ≤ o.config.maxDepth ∧ o.literal value verbatim = .ok r := by
  rw [reduceAt, checkLevel_bind_eq_ok_iff]

/-- A name is validated by its rule. -/
@[simp] theorem reduceAt_identifier_iff {name : String} :
    o.reduceAt level (.identifier w name) = .ok r ↔
      level ≤ o.config.maxDepth ∧ o.identifier name = .ok r := by
  rw [reduceAt, checkLevel_bind_eq_ok_iff]

/-- An operator in front of an operand is validated after its operand. -/
@[simp] theorem reduceAt_unary_iff {op : UnaryOp} {operand : Node} :
    o.reduceAt level (.unary w op operand) = .ok r ↔
      level ≤ o.config.maxDepth ∧ ∃ x, o.reduceAt (level + 1) operand = .ok x ∧
        o.unary op x = .ok r := by
  rw [reduceAt, checkLevel_bind_eq_ok_iff]
  simp only [bind_eq_ok_iff]

/-- An operator is validated after its operands. -/
@[simp] theorem reduceAt_binary_iff {op : BinaryOp} {left right : Node} :
    o.reduceAt level (.binary w op left right) = .ok r ↔
      level ≤ o.config.maxDepth ∧ ∃ x, o.reduceAt (level + 1) left = .ok x ∧
        ∃ y, o.reduceAt (level + 1) right = .ok y ∧ o.binary op x y = .ok r := by
  rw [reduceAt, checkLevel_bind_eq_ok_iff]
  simp only [bind_eq_ok_iff]

/-- A chain is validated after its operands. -/
@[simp] theorem reduceAt_logical_iff {op : LogicalOp} {operands : List Node} :
    o.reduceAt level (.logical w op operands) = .ok r ↔
      level ≤ o.config.maxDepth ∧
        ∃ xs, List.Forall₂ (fun n x => o.reduceAt (level + 1) n = .ok x) operands xs ∧
          o.logical op xs = .ok r := by
  rw [reduceAt, checkLevel_bind_eq_ok_iff]
  simp only [bind_eq_ok_iff, reduceAll_eq_ok_iff]

/-- An array is validated after its elements. -/
@[simp] theorem reduceAt_array_iff {elements : List Node} :
    o.reduceAt level (.array w elements) = .ok r ↔
      level ≤ o.config.maxDepth ∧
        ∃ xs, List.Forall₂ (fun n x => o.reduceAt (level + 1) n = .ok x) elements xs ∧
          o.array w xs = .ok r := by
  rw [reduceAt, checkLevel_bind_eq_ok_iff]
  simp only [bind_eq_ok_iff, reduceAll_eq_ok_iff]

/-- A conditional is validated after its test and both branches. -/
@[simp] theorem reduceAt_conditional_iff {test consequent alternate : Node} :
    o.reduceAt level (.conditional w test consequent alternate) = .ok r ↔
      level ≤ o.config.maxDepth ∧ ∃ x, o.reduceAt (level + 1) test = .ok x ∧
        ∃ y, o.reduceAt (level + 1) consequent = .ok y ∧
          ∃ z, o.reduceAt (level + 1) alternate = .ok z ∧ o.conditional x y z = .ok r := by
  rw [reduceAt, checkLevel_bind_eq_ok_iff]
  simp only [bind_eq_ok_iff]

/-- A sequence is validated after its expressions. -/
@[simp] theorem reduceAt_sequence_iff {expressions : List Node} :
    o.reduceAt level (.sequence w expressions) = .ok r ↔
      level ≤ o.config.maxDepth ∧
        ∃ xs, List.Forall₂ (fun n x => o.reduceAt (level + 1) n = .ok x) expressions xs ∧
          o.sequence xs = .ok r := by
  rw [reduceAt, checkLevel_bind_eq_ok_iff]
  simp only [bind_eq_ok_iff, reduceAll_eq_ok_iff]

/-- A member access is validated after its object. -/
@[simp] theorem reduceAt_member_iff {object : Node} {path : Path} :
    o.reduceAt level (.member w object path) = .ok r ↔
      level ≤ o.config.maxDepth ∧ ∃ x, o.reduceAt (level + 1) object = .ok x ∧
        o.member w x path = .ok r := by
  rw [reduceAt, checkLevel_bind_eq_ok_iff]
  simp only [bind_eq_ok_iff]

/-- A call is validated after its callee, which is a feature, and its arguments, which the feature may
compile. -/
@[simp] theorem reduceAt_call_iff {callee : Node} {arguments : List Node} :
    o.reduceAt level (.call w callee arguments) = .ok r ↔
      level ≤ o.config.maxDepth ∧ ∃ x, o.reduceAt (level + 1) callee = .ok x ∧
        ∃ feature, o.callee? x = some feature ∧
          ∃ xs, List.Forall₂ (o.ArgumentReduces feature (level + 1)) arguments xs ∧
            o.call w feature x xs = .ok r := by
  rw [reduceAt, checkLevel_bind_eq_ok_iff]
  simp only [bind_eq_ok_iff]
  refine and_congr_right fun _ => exists_congr fun x => and_congr_right fun _ => ?_
  cases hcallee : o.callee? x with
  | none => simp [fault]
  | some feature =>
      simp only [Option.some.injEq, exists_eq_left']
      unfold ArgumentReduces
      cases feature.argumentCompiler? with
      | none => simp only [bind_eq_ok_iff, reduceAll_eq_ok_iff]
      | some compile => simp only [bind_eq_ok_iff, mapM_eq_ok_iff]

end RuleLang.Optimizer
