import RuleLang.Proofs.Optimizer.Cost
import RuleLang.Proofs.Optimizer.FixedPoint
import RuleLang.Proofs.Optimizer.Reports

/-!
# Validated trees and what is known of them

A rule may look at a validated operand or at what is known of it, and may decide by the one and go on with
the other. Both say the same: the weight that is known is the weight of the root, a constant is known exactly
of a literal, and it is the constant of that literal. A rule that looks at operands alone finds the same
constants in them, and renders nothing but literals.

* `Optimizer.Mirrors`: what is known of a tree mirrors the tree.
* `Optimizer.renderWith`: the constants of trees that should be literals.
* `Optimizer.chainStep`: the rule of a chain over the operands alone.
* `Optimizer.exists_chainStep`: it renders literals only, and agrees with the rule that knows the constants.
* `Optimizer.ArrayFailure`: how an array fails.
* `Optimizer.FeatureFails`: what the features of calls fail with.
* `Optimizer.mirrors_of_reduceAt`: both sides agree, and only features miss a constant.
-/

namespace RuleLang

/-- A result is a literal if it comes from one. -/
theorem Reduction.literal?_eq_some_iff {V : Type} {result : Reduction V} {constant : V} :
    result.literal? = some constant ↔ result.origin = .literal constant := by
  unfold literal?
  split <;> simp_all

namespace Optimizer

variable {V : Type} {o : Optimizer V} {level : Nat} {node : Node} {r : Reduced V} {op : LogicalOp}
  {xs : List (Reduced V)}

/-! ### Constants and literals -/

/-- What is known of a tree mirrors it: the weight is that of the root, and the tree is a constant exactly
when it is a literal, rendered by the domain and of the type of its value. -/
structure Mirrors (o : Optimizer V) (r : Reduced V) : Prop where
  weight : r.result.weight = r.node.weight
  isLiteral : (∃ constant, r.result.origin = .literal constant) ↔ r.node.isLiteral
  rendered : ∀ constant, r.result.origin = .literal constant → ∃ value verbatim,
    r.node.literal? = some (value, verbatim) ∧ o.domain.renderLiteral value verbatim = .ok constant ∧
      r.result.estimate = .one value.typeName

/-- What is known of settled trees mirrors them. -/
theorem Settled.mirrors (h : o.Settled r) : o.Mirrors r where
  weight := h.weight_eq
  isLiteral := by
    rw [h.isLiteral_iff, Option.isSome_iff_exists]
    exact exists_congr fun constant => Reduction.literal?_eq_some_iff.symm
  rendered := fun constant horigin => by
    cases h with
    | constant isConstant =>
        obtain ⟨value, verbatim, rendered, hrendered, rfl⟩ := isConstant
        cases horigin
        exact ⟨value, verbatim, rfl, hrendered, rfl⟩
    | _ => cases horigin

/-- The constant of a tree that should be a literal. -/
def renderNode (render : Value → Bool → Except RuleError V) (node : Node) : Except RuleError V :=
  match node.literal? with
  | some (value, verbatim) => render value verbatim
  | none => .error (.notConstant node.text)

/-- The constants of trees that should be literals. -/
def renderWith (render : Value → Bool → Except RuleError V) (nodes : List Node) :
    Except RuleError (List V) :=
  nodes.mapM (renderNode render)

/-- Over literals, only the rendering of one of them fails. -/
theorem exists_of_renderWith_eq_error {render : Value → Bool → Except RuleError V} {nodes : List Node}
    {e : RuleError} (literals : ∀ node ∈ nodes, node.isLiteral) (h : renderWith render nodes = .error e) :
    ∃ node ∈ nodes, ∃ value verbatim, node.literal? = some (value, verbatim) ∧
      render value verbatim = .error e := by
  obtain ⟨node, mem, hnode⟩ := exists_of_mapM_eq_error h
  refine ⟨node, mem, ?_⟩
  cases node with
  | literal w value verbatim => exact ⟨value, verbatim, rfl, hnode⟩
  | _ => exact absurd (literals _ mem) Bool.false_ne_true

/-- Literals are rendered to the constants that are known of them. -/
theorem renderWith_map (settled : ∀ x ∈ xs, o.Settled x) (literals : ∀ x ∈ xs, x.node.isLiteral) :
    renderWith o.domain.renderLiteral (xs.map Reduced.node) = .ok (constants xs) := by
  induction xs with
  | nil => rfl
  | cons x xs ih =>
      rw [List.forall_mem_cons] at settled literals
      obtain ⟨constant, horigin⟩ := settled.1.mirrors.isLiteral.mpr literals.1
      obtain ⟨value, verbatim, hliteral, hrendered, -⟩ := settled.1.mirrors.rendered constant horigin
      have hnode : renderNode o.domain.renderLiteral x.node = .ok constant := by
        rw [renderNode, hliteral]
        exact hrendered
      have hknown : x.result.literal? = some constant := Reduction.literal?_eq_some_iff.mpr horigin
      have hconstants : constants (x :: xs) = constant :: constants xs := List.filterMap_cons_some hknown
      rw [renderWith, List.map_cons, List.mapM_cons, hnode, ← renderWith, ih settled.2 literals.2, hconstants]
      rfl

/-! ### Chains over their operands alone -/

/-- What a rule makes of a node: a constant, a literal, one of the trees that it looks at, or the node over
trees that it keeps. -/
inductive ChainStep (V : Type) where
  | fold (value : V)
  | foldLiteral (value : Value)
  | replace (node : Node)
  | keep (nodes : List Node)

/-- Whether a tree is a constant that absorption takes away. -/
def absorbs (o : Optimizer V) (node : Node) : Bool :=
  o.config.absorption && node.constant?.isSome

/-- Whether a tree is a constant that decides a chain. -/
def decides (o : Optimizer V) (op : LogicalOp) (node : Node) : Bool :=
  o.config.absorption && node.constant?.any fun value => op.decides value.isTruthy

/-- What becomes of the operands that absorption leaves of an undecided chain. -/
def keptStep (o : Optimizer V) (op : LogicalOp) : List Node → Except RuleError (ChainStep V)
  | [] => .ok (.foldLiteral (.bool op.neutral))
  | [single] => .ok (.replace single)
  | kept =>
    if kept.all Node.isLiteral then
      (renderWith o.domain.renderLiteral kept).map fun values => .fold (o.domain.logical op values)
    else .ok (.keep kept)

/-- The rule of a chain that looks at the validated operands alone: chains inside it are merged first, and
constants are rendered from the literals that stand there. -/
def chainStep (o : Optimizer V) (op : LogicalOp) (nodes : List Node) : Except RuleError (ChainStep V) :=
  if nodes.all fun node => node.constant?.isSome then
    (renderWith o.domain.renderLiteral nodes).map fun values => .fold (o.domain.logical op values)
  else
    let flat := nodes.flatMap (o.flatten op)
    match flat.find? (o.decides op) with
    | some deciding => .ok (.replace deciding)
    | none => o.keptStep op (flat.filter fun node => !o.absorbs node)

/-- What a chain is validated to, if its rule takes a step. -/
def ChainStep.Yields (o : Optimizer V) (op : LogicalOp) (result : Except RuleError (Reduced V)) :
    ChainStep V → Prop
  | fold value => result = o.fold value
  | foldLiteral value => result = o.literal value false
  | replace node => ∃ r, result = .ok r ∧ r.node = node
  | keep nodes => result = .ok ⟨.logical (Weight.sum (nodes.map Node.weight) + 1) op nodes,
      .ofComputed (.one "boolean") (Weight.sum (nodes.map Node.weight) + 1) none⟩

/-- Two operands or more fold if they are all literals, and are kept otherwise. -/
theorem keptStep_of_two_le {kept : List Node} (two : 2 ≤ kept.length) :
    o.keptStep op kept = if kept.all Node.isLiteral then
      (renderWith o.domain.renderLiteral kept).map fun values => .fold (o.domain.logical op values)
    else .ok (.keep kept) := by
  match kept, two with
  | _ :: _ :: _, _ => rfl

/-- A literal contributes itself to an enclosing chain. -/
theorem flatten_of_isLiteral (h : node.isLiteral) : o.flatten op node = [node] := by
  refine flatten_of_not fun hchain => ?_
  cases node with
  | literal w value verbatim => exact absurd hchain.2 Bool.false_ne_true
  | _ => exact absurd h Bool.false_ne_true

/-- An operand that is not absorbed contributes nothing that is. -/
theorem not_absorbs_of_mem_flatten {x : Reduced V} (settled : o.Settled x) (unabsorbed : ¬ o.isAbsorbed x)
    {part : Node} (hpart : part ∈ o.flatten op x.node) : ¬ o.absorbs part := by
  obtain ⟨parts, hparts, isPart, -⟩ := settled.flatten op unabsorbed
  rw [hparts] at hpart
  obtain ⟨p, hp, rfl⟩ := List.mem_map.mp hpart
  exact (isPart p hp).unabsorbed

/-- An operand that is absorbed contributes itself. -/
theorem flatten_of_isAbsorbed {x : Reduced V} (h : o.isAbsorbed x) : o.flatten op x.node = [x.node] :=
  flatten_of_isLiteral (Node.isLiteral_of_constant? (Bool.and_eq_true _ _ ▸ h).2)

/-- A constant that decides a chain is one that absorption takes away. -/
theorem absorbs_of_decides (h : o.decides op node) : o.absorbs node := by
  -- It does not matter what is known of the tree.
  have hdecisive : o.isDecisive op ⟨node, .ofComputed (.one "any") 0 none⟩ := h
  exact isAbsorbed_of_isDecisive hdecisive

/-- The operand that decides a merged chain is the one that decides the chain. -/
theorem find?_flatten (settled : ∀ x ∈ xs, o.Settled x) :
    (xs.flatMap fun x => o.flatten op x.node).find? (o.decides op) =
      (xs.find? (o.isDecisive op)).map Reduced.node := by
  induction xs with
  | nil => rfl
  | cons x xs ih =>
      rw [List.forall_mem_cons] at settled
      have hsame : o.isDecisive op x = o.decides op x.node := rfl
      rw [List.flatMap_cons, List.find?_append, ih settled.2]
      by_cases absorbed : o.isAbsorbed x
      · rw [flatten_of_isAbsorbed absorbed]
        cases hdecides : o.decides op x.node <;> simp [hsame, hdecides]
      · have undecided : (o.flatten op x.node).find? (o.decides op) = none :=
          List.find?_eq_none.mpr fun part hpart hdecides =>
            not_absorbs_of_mem_flatten settled.1 absorbed hpart (absorbs_of_decides hdecides)
        have hx : ¬ o.isDecisive op x := fun h => absorbed (isAbsorbed_of_isDecisive h)
        rw [undecided, Option.none_or, List.find?_cons_of_neg hx]

/-- What absorption leaves of a merged chain is what it leaves of the chain, merged. -/
theorem filter_flatten (settled : ∀ x ∈ xs, o.Settled x) :
    ((xs.flatMap fun x => o.flatten op x.node).filter fun node => !o.absorbs node) =
      (o.remaining xs).flatMap fun x => o.flatten op x.node := by
  induction xs with
  | nil => rfl
  | cons x xs ih =>
      rw [List.forall_mem_cons] at settled
      rw [List.flatMap_cons, List.filter_append, ih settled.2]
      by_cases absorbed : o.isAbsorbed x
      · have hremaining : o.remaining (x :: xs) = o.remaining xs :=
          List.filter_cons_of_neg (by simpa using absorbed)
        have habsorbs : o.absorbs x.node := absorbed
        rw [flatten_of_isAbsorbed absorbed, hremaining, List.filter_singleton, habsorbs]
        rfl
      · have hremaining : o.remaining (x :: xs) = x :: o.remaining xs :=
          List.filter_cons_of_pos (by simpa using absorbed)
        have hkept : (o.flatten op x.node).filter (fun node => !o.absorbs node) = o.flatten op x.node :=
          List.filter_eq_self.mpr fun part hpart => by
            simpa using not_absorbs_of_mem_flatten settled.1 absorbed hpart
        rw [hremaining, hkept, List.flatMap_cons]

/-- An operand that is not absorbed contributes nothing but literals exactly when it is one. -/
theorem flatten_all_isLiteral_iff {x : Reduced V} (settled : o.Settled x) (unabsorbed : ¬ o.isAbsorbed x) :
    (∀ part ∈ o.flatten op x.node, part.isLiteral) ↔ x.node.isLiteral := by
  constructor
  · obtain ⟨parts, hparts, -, -, hliteral⟩ := settled.flatten op unabsorbed
    rw [hparts, List.forall_mem_map]
    exact hliteral
  · intro literal
    rw [flatten_of_isLiteral literal]
    exact List.forall_mem_singleton.mpr literal

/-- A chain that one operand is left of gives way to it, also if it is merged with that operand. -/
theorem exists_keptStep_single (op : LogicalOp) {x : Reduced V} (settled : o.Settled x) :
    ∃ step, o.keptStep op (o.flatten op x.node) = .ok step ∧ step.Yields o op (.ok x) := by
  by_cases hchain : o.config.flattening ∧ x.node.isChainOf op
  · cases settled with
    | @logical inner xs settled two notLiterals unabsorbed flat =>
        -- Its operands are at least two and not all literals, so that merging builds the same chain again.
        obtain ⟨hflattening, hchain⟩ := hchain
        obtain rfl : inner = op := by simpa [Node.isChainOf] using hchain
        have hflatten : o.flatten inner (.logical (Weight.sum (xs.map fun x => x.node.weight) + 1) inner
            (xs.map Reduced.node)) = xs.map Reduced.node := by
          simp [flatten, hflattening]
        have htwo : 2 ≤ (xs.map Reduced.node).length := by rwa [List.length_map]
        have hall : ¬ (xs.map Reduced.node).all Node.isLiteral := by
          rw [List.all_map, List.all_eq_true]
          exact notLiterals
        have hweights : (xs.map Reduced.node).map Node.weight = xs.map fun x => x.node.weight := List.map_map
        rw [hflatten, keptStep_of_two_le htwo, if_neg hall]
        exact ⟨_, rfl, by simp only [ChainStep.Yields, hweights]⟩
    | constant constant =>
        obtain ⟨value, verbatim, rendered, -, rfl⟩ := constant
        exact absurd hchain.2 Bool.false_ne_true
    | _ => exact absurd hchain.2 Bool.false_ne_true
  · rw [flatten_of_not hchain]
    exact ⟨_, rfl, x, rfl, rfl⟩

/-- Several operands that absorption leaves fold if they are literals, and stay in the merged chain if
not. -/
theorem exists_keptStep_several (op : LogicalOp) (two : 2 ≤ xs.length) (settled : ∀ x ∈ xs, o.Settled x)
    (unabsorbed : ∀ x ∈ xs, ¬ o.isAbsorbed x) :
    ∃ step, o.keptStep op (xs.flatMap fun x => o.flatten op x.node) = .ok step ∧
      (((∀ x ∈ xs, x.node.isLiteral) ∧ step = .fold (o.domain.logical op (constants xs))) ∨
        (¬ (∀ x ∈ xs, x.node.isLiteral) ∧
          step = .keep (xs.flatMap fun x => o.flatten op x.node))) := by
  obtain ⟨parts, hparts, -, hlength, -⟩ := exists_parts op settled unabsorbed
  have htwo : 2 ≤ (xs.flatMap fun x => o.flatten op x.node).length := by
    rw [hparts, List.length_map]
    omega
  have hall : ((xs.flatMap fun x => o.flatten op x.node).all Node.isLiteral) ↔
      ∀ x ∈ xs, x.node.isLiteral := by
    rw [List.all_flatMap, List.all_eq_true]
    refine forall₂_congr fun x hx => ?_
    rw [List.all_eq_true]
    exact flatten_all_isLiteral_iff (settled x hx) (unabsorbed x hx)
  rw [keptStep_of_two_le htwo]
  by_cases literals : ∀ x ∈ xs, x.node.isLiteral
  · have hflatten : (xs.flatMap fun x => o.flatten op x.node) = xs.map Reduced.node := by
      rw [List.map_eq_flatMap]
      exact List.flatMap_congr fun x hx => flatten_of_isLiteral (literals x hx)
    rw [if_pos (hall.mpr literals), hflatten, renderWith_map settled literals]
    exact ⟨_, rfl, .inl ⟨literals, rfl⟩⟩
  · rw [if_neg (mt hall.mp literals)]
    exact ⟨_, rfl, .inr ⟨literals, rfl⟩⟩

/-- The rule of a chain that looks at the operands alone renders literals only, and takes the step that the
rule takes that knows the constants. -/
theorem exists_chainStep (op : LogicalOp) (settled : ∀ x ∈ xs, o.Settled x) :
    ∃ step, o.chainStep op (xs.map Reduced.node) = .ok step ∧ step.Yields o op (o.logical op xs) := by
  have hconstants : ((xs.map Reduced.node).all fun node => node.constant?.isSome) =
      xs.all fun x => x.node.constant?.isSome := List.all_map
  have kept : ∀ x ∈ o.remaining xs, o.Settled x ∧ ¬ o.isAbsorbed x := fun x hx =>
    ⟨settled x (mem_remaining.mp hx).1, (mem_remaining.mp hx).2⟩
  -- One rule merges chains before it looks for constants and the other one after that; the two lemmas about
  -- merged chains say that it makes no difference.
  unfold chainStep logical
  rw [hconstants]
  split
  · rename_i constant
    have literals : ∀ x ∈ xs, x.node.isLiteral := fun x hx =>
      Node.isLiteral_of_constant? (List.all_eq_true.mp constant x hx)
    rw [renderWith_map settled literals]
    exact ⟨_, rfl, rfl⟩
  · dsimp only
    rw [List.flatMap_map, find?_flatten settled]
    cases xs.find? (o.isDecisive op) with
    | some deciding => exact ⟨_, rfl, deciding, rfl, rfl⟩
    | none =>
        dsimp only [Option.map_none]
        rw [filter_flatten settled, ← remaining]
        rcases hrest : o.remaining xs with _ | ⟨first, _ | ⟨second, rest⟩⟩
        · exact ⟨_, rfl, rfl⟩
        · rw [List.flatMap_singleton]
          exact exists_keptStep_single op (kept first (by simp [hrest])).1
        · rw [hrest] at kept
          obtain ⟨step, hstep, ⟨literals, rfl⟩ | ⟨notLiterals, rfl⟩⟩ := exists_keptStep_several op (by simp)
            (fun x hx => (kept x hx).1) (fun x hx => (kept x hx).2)
          · refine ⟨_, hstep, ?_⟩
            dsimp only
            rw [if_pos (List.all_eq_true.mpr literals)]
            rfl
          · refine ⟨_, hstep, ?_⟩
            dsimp only
            rw [if_neg (mt List.all_eq_true.mp notLiterals)]
            rfl

/-! ### Arrays -/

/-- How an array fails: as one of the literals in it is rendered, or the literal that it becomes. -/
inductive ArrayFailure (o : Optimizer V) (w : Weight) (xs : List (Reduced V)) : RuleError → Prop
  | element {x : Reduced V} {value : Value} {verbatim : Bool} {cause : RuleError} (mem : x ∈ xs)
      (literal : x.node.literal? = some (value, verbatim))
      (refused : o.domain.renderElement value verbatim = .error cause) :
      ArrayFailure o w xs (cause.blameNode (.array w (xs.map Reduced.node)))
  | literal {value : Value} {verbatim : Bool} {cause : RuleError}
      (refused : o.domain.renderLiteral value verbatim = .error cause) :
      ArrayFailure o w xs (cause.blameNode (.ofValue value verbatim))

/-- An array fails in one of these ways. -/
theorem arrayFailure_of_array {w : Weight} {e : RuleError} (h : o.array w xs = .error e) :
    o.ArrayFailure w xs e := by
  have ofLiteral {value : Value} {verbatim : Bool} (h : o.literal value verbatim = .error e) :
      o.ArrayFailure w xs e := by
    unfold literal at h
    split at h
    · cases h
    · rename_i cause hrender
      cases h
      exact .literal hrender
  unfold array at h
  dsimp only at h
  split at h
  · exact ofLiteral h
  · split at h
    · rename_i literals
      split at h
      · exact ofLiteral h
      · rename_i cause helements
        cases h
        obtain ⟨node, mem, value, verbatim, hliteral, hrender⟩ :=
          exists_of_renderWith_eq_error (List.all_eq_true.mp literals) helements
        obtain ⟨x, hx, rfl⟩ := List.mem_map.mp mem
        exact .element hx hliteral hrender
    · cases h

/-! ### Missing constants -/

/-- The features of the calls that stand in a tree fail: one that describes a call over validated arguments,
or one that compiles an argument. -/
inductive FeatureFails (o : Optimizer V) (level : Nat) (node : Node) (cause : RuleError) : Prop
  | description {depth : Nat} {w : Weight} {callee : Node} {arguments : List Node}
      {feature : StaticFeature V} {xs : List (Reduced V)}
      (stands : o.Stands depth (.call w callee arguments) level node)
      (known : o.calleeFeature? (depth + 1) callee = some feature)
      (reduced : List.Forall₂ (o.ArgumentReduces feature (depth + 1)) arguments xs)
      (refused : feature.describe (xs.map Reduced.result) = .error cause) : FeatureFails o level node cause
  | compiler {depth : Nat} {w : Weight} {callee argument : Node} {arguments : List Node}
      {feature : StaticFeature V} {compile : Node → Except RuleError String}
      (stands : o.Stands depth (.call w callee arguments) level node)
      (known : o.calleeFeature? (depth + 1) callee = some feature)
      (compiles : feature.argumentCompiler? = some compile) (mem : argument ∈ arguments)
      (refused : compile argument = .error cause) : FeatureFails o level node cause

variable {cause : RuleError}

/-- A feature that fails in a part of a tree fails in the tree. -/
theorem FeatureFails.child {child : Node} (mem : child ∈ o.validatedChildren level node)
    (h : o.FeatureFails (level + 1) child cause) : o.FeatureFails level node cause := by
  cases h with
  | description stands known reduced refused => exact .description (.child mem stands) known reduced refused
  | compiler stands known compiles mem' refused => exact .compiler (.child mem stands) known compiles mem' refused

/-- No feature is called in a literal. -/
theorem not_featureFails_literal {value : Value} {verbatim : Bool} :
    ¬ o.FeatureFails level (.ofValue value verbatim) cause := by
  have notStands {depth : Nat} {w : Weight} {callee : Node} {arguments : List Node} :
      ¬ o.Stands depth (.call w callee arguments) level (.ofValue value verbatim) := by
    intro h
    cases h with
    | child mem _ => exact absurd mem List.not_mem_nil
  intro h
  cases h with
  | description stands _ _ _ => exact notStands stands
  | compiler stands _ _ _ _ => exact notStands stands

/-- What the visits of a call come to are its callee and its arguments, as they are validated or compiled. -/
theorem argumentReduces_of_visits {w : Weight} {callee : Node} {arguments : List Node} {x : Reduced V}
    {feature : StaticFeature V} (known : o.callee? x = some feature)
    (accepted : List.Forall₂ (fun visit x => visit.outcome o (level + 1) = .ok x)
      (o.visits level (.call w callee arguments)) (x :: xs)) :
    o.calleeFeature? (level + 1) callee = some feature ∧
      List.Forall₂ (o.ArgumentReduces feature (level + 1)) arguments xs := by
  rw [visits, List.forall₂_cons] at accepted
  obtain ⟨hcallee, harguments⟩ := accepted
  have hfeature : o.calleeFeature? (level + 1) callee = some feature := by
    rw [Visit.outcome] at hcallee
    rw [calleeFeature?, hcallee]
    exact known
  rw [hfeature, List.forall₂_map_left_iff] at harguments
  refine ⟨hfeature, harguments.imp fun argument y hy => ?_⟩
  rw [argumentVisit] at hy
  rw [ArgumentReduces]
  cases hcompiler : feature.argumentCompiler? with
  | none =>
      rw [hcompiler] at hy
      exact hy
  | some compile =>
      rw [hcompiler] at hy
      exact hy

/-- Where validation misses a constant, a feature does. -/
theorem featureFails_of_reports (hd : o.domain.IsStandard) {e : RuleError} {reason : String}
    (h : o.Reports level node e) (hroot : e.rootCause = .notConstant reason) :
    ∃ cause, o.FeatureFails level node cause ∧ cause.rootCause = .notConstant reason := by
  induction h with
  | tooDeep deep => cases hroot
  | @child level node child before after e shallow split accepted _ ih =>
      have mem : Visit.validated child ∈ o.visits level node := by simp [split]
      obtain ⟨cause, hcause, hroot⟩ := ih hroot
      exact ⟨cause, hcause.child (mem_validatedChildren_of_visits mem), hroot⟩
  | @compiler level node argument compile before after e shallow split accepted fails =>
      have mem : Visit.compiled compile argument ∈ o.visits level node := by simp [split]
      obtain ⟨w, callee, arguments, feature, rfl, known, compiles, hargument⟩ := exists_call_of_visits mem
      rw [RuleError.rootCause_blameNode] at hroot
      exact ⟨e, .compiler .root known compiles hargument fails, hroot⟩
  | compiledText shallow split accepted compiles _ ih =>
      obtain ⟨cause, hcause, -⟩ := ih hroot
      exact absurd hcause not_featureFails_literal
  | own shallow accepted faulty =>
      cases faulty.failure hd with
      | fault blames => exact absurd hroot (blames.rootCause_ne_notConstant reason)
      | description place known refused =>
          obtain ⟨hfeature, harguments⟩ := argumentReduces_of_visits known accepted
          rw [RuleError.rootCause_blameNode] at hroot
          exact ⟨_, .description .root hfeature harguments refused, hroot⟩

/-- **What is known of a validated tree mirrors the tree.** Its weight is that of the root, and it is a
constant exactly when the tree is a literal, rendered by the domain and of the type of its value. So the rule
of a chain finds the same constants in the validated operands as are known of them, and an array renders
nothing but literals. In either domain validation never misses a constant, unless a feature does that
describes a call or compiles an argument. -/
theorem mirrors_of_reduceAt (o : Optimizer V) :
    (∀ level node r, o.reduceAt level node = .ok r → o.Mirrors r) ∧
      (∀ level nodes xs op, o.reduceAll level nodes = .ok xs →
        ∃ step, o.chainStep op (xs.map Reduced.node) = .ok step ∧ step.Yields o op (o.logical op xs)) ∧
      (∀ w xs e, o.array w xs = .error e → o.ArrayFailure w xs e) ∧
      (o.domain.IsStandard → ∀ level node e reason, o.reduceAt level node = .error e →
        e.rootCause = .notConstant reason →
        ∃ cause, o.FeatureFails level node cause ∧ cause.rootCause = .notConstant reason) := by
  refine ⟨fun level node r h => (settled_of_reduceAt h).mirrors, fun level nodes xs op h => ?_,
    fun w xs e h => arrayFailure_of_array h, fun hd level node e reason h hroot => ?_⟩
  · refine exists_chainStep op fun x hx => ?_
    obtain ⟨node, -, hnode⟩ := exists_of_mem_forall₂ (reduceAll_eq_ok_iff.mp h) hx
    exact settled_of_reduceAt hnode
  · exact featureFails_of_reports hd (reports_of_reduceAt h) hroot

end Optimizer

namespace Sample

/-- A choice between a folded sum and a member, decided by a text. -/
def foldedChoice : Node :=
  .conditional 0 (.ofValue (.string "x") false) (.binary 0 .add (numeral 1) (numeral 2))
    (memberOf "trx" "amount")

/-- A count of something that does not compile to a condition. -/
def opaqueCount : Node :=
  callOf "count" [.identifier 0 "isCredit"]

/-- The sum is a constant and mirrors its literal, an array of arrays has no form in SQL, and where the count
misses a constant, it is the compiler of its argument that does. -/
theorem mirrors_of_reduceAt_opaqueCount :
    (∃ r value, (engine (ω := Unit) statementText).optimizer.compile foldedChoice = .ok r ∧
      r.result.origin = .literal value ∧ (engine (ω := Unit) statementText).optimizer.Mirrors r) ∧
      (∃ xs step, (engine (ω := Unit) statementText).optimizer.reduceAll 0
          [foldedChoice, callOf "isCredit" []] = .ok xs ∧
        (engine (ω := Unit) statementText).optimizer.chainStep .and (xs.map Reduced.node) = .ok step) ∧
      (∃ xs e, compiler.reduceAll 0 [.ofValue (.array []) false] = .ok xs ∧
        compiler.array 0 xs = .error e ∧ compiler.ArrayFailure 0 xs e) ∧
      ∃ e reason cause, (engine (ω := Unit) statementText).optimizer.compile opaqueCount = .error e ∧
        e.rootCause = .notConstant reason ∧
        (engine (ω := Unit) statementText).optimizer.FeatureFails 0 opaqueCount cause ∧
        cause.rootCause = .notConstant reason := by
  have hfolded : ∃ r value, (engine (ω := Unit) statementText).optimizer.compile foldedChoice = .ok r ∧
      r.result.origin = .literal value := ⟨_, _, rfl, rfl⟩
  have hoperands : ∃ xs, (engine (ω := Unit) statementText).optimizer.reduceAll 0
      [foldedChoice, callOf "isCredit" []] = .ok xs := ⟨_, rfl⟩
  have harray : ∃ xs e, compiler.reduceAll 0 [.ofValue (.array []) false] = .ok xs ∧
      compiler.array 0 xs = .error e := ⟨_, _, rfl, rfl⟩
  have hopaque : ∃ e reason, (engine (ω := Unit) statementText).optimizer.compile opaqueCount = .error e ∧
      e.rootCause = .notConstant reason := ⟨_, _, rfl, rfl⟩
  obtain ⟨r, value, hr, hvalue⟩ := hfolded
  obtain ⟨xs, hxs⟩ := hoperands
  obtain ⟨ys, failure, hys, hfailure⟩ := harray
  obtain ⟨e, reason, he, hreason⟩ := hopaque
  obtain ⟨-, -, harrays, -⟩ := Optimizer.mirrors_of_reduceAt compiler
  obtain ⟨hmirrors, hchains, -, hmissing⟩ :=
    Optimizer.mirrors_of_reduceAt (engine (ω := Unit) statementText).optimizer
  obtain ⟨step, hstep, -⟩ := hchains 0 _ xs .and hxs
  obtain ⟨cause, hcause, hroot⟩ := hmissing .concrete 0 opaqueCount e reason he hreason
  exact ⟨⟨r, value, hr, hvalue, hmirrors 0 foldedChoice r hr⟩, ⟨xs, step, hxs, hstep⟩,
    ⟨ys, failure, hys, hfailure, harrays 0 ys failure hfailure⟩, e, reason, cause, he, hreason, hcause, hroot⟩

end Sample

end RuleLang
