import RuleLang.Proofs.Optimizer.Rules

/-!
# Validation as visits and a rule

Validation of a node visits what is below it, one after the other, and applies the rule of its kind to
what it found. The order is that of the direct subtrees. Below a call, the arguments are visited once the
callee is known to be a feature, and where that feature has a compiler for its arguments they are compiled
instead of validated.

* `Optimizer.Visit`, `Optimizer.visits`: what is visited below a node, in order.
* `Optimizer.Rule`: the rule of a node over what was found.
* `Optimizer.exists_rule`: validation makes its visits and applies the rule.
* `Optimizer.reduceAt_eq_error_iff`: it fails as the first visit that fails, or else as the rule.
* `Optimizer.exists_rule_of_reduceAt`: it succeeds as the rule, after all visits are accepted.
* `Optimizer.Uncompiled`: no feature compiles its arguments, so that all visits are of subtrees.
-/

namespace RuleLang

/-- A traversal fails as its first item that fails. -/
theorem mapM_of_first {ε α β : Type} {f : α → Except ε β} {before after : List α} {x : α} {e : ε}
    (accepted : ∀ y ∈ before, ∃ b, f y = .ok b) (fails : f x = .error e) :
    (before ++ x :: after).mapM f = .error e := by
  induction before with
  | nil => rw [List.nil_append, List.mapM_cons, fails]; rfl
  | cons y before ih =>
      rw [List.forall_mem_cons] at accepted
      obtain ⟨⟨b, hb⟩, accepted⟩ := accepted
      rw [List.cons_append, List.mapM_cons, hb, ih accepted]
      rfl

/-- Either every item of a traversal succeeds, or there is a first one that fails. -/
theorem forall₂_or_first {ε α β : Type} (f : α → Except ε β) (xs : List α) :
    (∃ ys, List.Forall₂ (fun x y => f x = .ok y) xs ys) ∨
      ∃ before x after e, xs = before ++ x :: after ∧ (∀ y ∈ before, ∃ b, f y = .ok b) ∧
        f x = .error e := by
  induction xs with
  | nil => exact .inl ⟨[], .nil⟩
  | cons x xs ih =>
      cases hx : f x with
      | error e => exact .inr ⟨[], x, xs, e, rfl, fun y hy => absurd hy List.not_mem_nil, hx⟩
      | ok y =>
          rcases ih with ⟨ys, hys⟩ | ⟨before, x', after, e, rfl, accepted, fails⟩
          · exact .inl ⟨y :: ys, .cons hx hys⟩
          · exact .inr ⟨x :: before, x', after, e, rfl,
              List.forall_mem_cons.mpr ⟨⟨y, hx⟩, accepted⟩, fails⟩

namespace Optimizer

variable {V : Type}

/-! ### Visits -/

/-- What validation does below a node. -/
inductive Visit where
  /-- A subtree is validated. -/
  | validated (child : Node)
  /-- An argument of a call is compiled to text. -/
  | compiled (compile : Node → Except RuleError String) (argument : Node)

/-- What a visit at a nesting level comes to. -/
def Visit.outcome (o : Optimizer V) (level : Nat) : Visit → Except RuleError (Reduced V)
  | validated child => o.reduceAt level child
  | compiled compile argument => o.compiledArgument compile argument level

/-- A visit is accepted when it comes to a validated tree. -/
def Visit.Accepted (o : Optimizer V) (level : Nat) (visit : Visit) : Prop :=
  ∃ x, visit.outcome o level = .ok x

/-- The feature that a callee turns out to be. -/
def calleeFeature? (o : Optimizer V) (level : Nat) (callee : Node) : Option (StaticFeature V) :=
  match o.reduceAt level callee with
  | .ok x => o.callee? x
  | .error _ => none

/-- How an argument of a feature is visited. -/
def argumentVisit (feature : StaticFeature V) (argument : Node) : Visit :=
  match feature.argumentCompiler? with
  | some compile => .compiled compile argument
  | none => .validated argument

/-- What is visited below a node, one level further down: the direct subtrees in their order, of a call
the arguments only when the callee is a feature. -/
def visits (o : Optimizer V) (level : Nat) : Node → List Visit
  | .call _ callee arguments =>
    .validated callee ::
      match o.calleeFeature? (level + 1) callee with
      | some feature => arguments.map (argumentVisit feature)
      | none => []
  | node => node.children.map .validated

/-- The rule of a node over what was found below it, kind by kind. -/
inductive Rule (o : Optimizer V) : Node → List (Reduced V) → Except RuleError (Reduced V) → Prop
  | literal {w : Weight} {value : Value} {verbatim : Bool} :
      Rule o (.literal w value verbatim) [] (o.literal value verbatim)
  | identifier {w : Weight} {name : String} : Rule o (.identifier w name) [] (o.identifier name)
  | unary {w : Weight} {op : UnaryOp} {operand : Node} {x : Reduced V} :
      Rule o (.unary w op operand) [x] (o.unary op x)
  | binary {w : Weight} {op : BinaryOp} {left right : Node} {x y : Reduced V} :
      Rule o (.binary w op left right) [x, y] (o.binary op x y)
  | logical {w : Weight} {op : LogicalOp} {operands : List Node} {xs : List (Reduced V)} :
      Rule o (.logical w op operands) xs (o.logical op xs)
  | array {w : Weight} {elements : List Node} {xs : List (Reduced V)} :
      Rule o (.array w elements) xs (o.array w xs)
  | conditional {w : Weight} {test consequent alternate : Node} {x y z : Reduced V} :
      Rule o (.conditional w test consequent alternate) [x, y, z] (o.conditional x y z)
  | sequence {w : Weight} {expressions : List Node} {xs : List (Reduced V)} :
      Rule o (.sequence w expressions) xs (o.sequence xs)
  | notCallable {w : Weight} {callee : Node} {arguments : List Node} {x : Reduced V}
      (unknown : o.callee? x = none) :
      Rule o (.call w callee arguments) [x]
        (fault (.call w x.node arguments)
          (.notCallable ("`" ++ x.node.text ++ "` is not a feature")))
  | call {w : Weight} {callee : Node} {arguments : List Node} {x : Reduced V} {xs : List (Reduced V)}
      {feature : StaticFeature V} (known : o.callee? x = some feature) :
      Rule o (.call w callee arguments) (x :: xs) (o.call w feature x xs)
  | member {w : Weight} {object : Node} {path : Path} {x : Reduced V} :
      Rule o (.member w object path) [x] (o.member w x path)

/-! ### Validation in these terms -/

variable {o : Optimizer V} {level : Nat} {node : Node} {xs : List (Reduced V)} {e : RuleError}

/-- A node may stand at a level that is allowed. -/
theorem checkLevel_of_le (hlevel : level ≤ o.config.maxDepth) : o.checkLevel node level = .ok () :=
  if_neg (Nat.not_lt.mpr hlevel)

/-- A node too deep down is not looked into. -/
theorem reduceAt_of_lt (hlevel : o.config.maxDepth < level) :
    o.reduceAt level node =
      .error (.invalidNode node.compactJson (.depthExceeded o.config.maxDepth)) := by
  have hcheck : o.checkLevel node level =
      .error (.invalidNode node.compactJson (.depthExceeded o.config.maxDepth)) := if_pos hlevel
  cases node <;> rw [reduceAt, hcheck] <;> rfl

/-- Visits that validate trees validate them from left to right. -/
theorem mapM_validated (nodes : List Node) :
    (nodes.map Visit.validated).mapM (Visit.outcome o level) = o.reduceAll level nodes := by
  rw [reduceAll_eq_mapM, List.mapM_map]
  rfl

/-- Below a call, the callee is visited first and then, if it is a feature, the arguments. -/
theorem reduceAt_call_eq (hlevel : level ≤ o.config.maxDepth) (w : Weight) (callee : Node)
    (arguments : List Node) :
    o.reduceAt level (.call w callee arguments) =
      o.reduceAt (level + 1) callee >>= fun x =>
        match o.callee? x with
        | none => fault (.call w x.node arguments)
            (.notCallable ("`" ++ x.node.text ++ "` is not a feature"))
        | some feature =>
          (arguments.map (argumentVisit feature)).mapM (Visit.outcome o (level + 1)) >>=
            o.call w feature x := by
  rw [reduceAt, checkLevel_of_le hlevel]
  refine congrArg (o.reduceAt (level + 1) callee >>= ·) (funext fun x => ?_)
  cases o.callee? x with
  | none => rfl
  | some feature =>
      dsimp only
      rw [List.mapM_map]
      unfold argumentVisit
      cases feature.argumentCompiler? with
      | some compile => rfl
      | none => rw [reduceAll_eq_mapM]; rfl

/-- What the visits of a node come to, if all of them are accepted. -/
def findings (o : Optimizer V) (level : Nat) (node : Node) : Except RuleError (List (Reduced V)) :=
  (o.visits level node).mapM (Visit.outcome o (level + 1))

/-- A node whose children are all validated finds what they are validated to. -/
theorem findings_of_children (h : o.visits level node = node.children.map .validated) :
    o.findings level node = o.reduceAll (level + 1) node.children := by
  rw [findings, h, mapM_validated]

/-- Validation makes its visits, and then applies the rule of the node to what it found. -/
theorem exists_rule (hlevel : level ≤ o.config.maxDepth) (node : Node) :
    ∃ rule : List (Reduced V) → Except RuleError (Reduced V),
      o.reduceAt level node = o.findings level node >>= rule ∧
        ∀ xs, o.findings level node = .ok xs → o.Rule node xs (rule xs) := by
  have hcheck : o.checkLevel node level = .ok () := checkLevel_of_le hlevel
  -- A rule is total over lists; the visits of a node never find fewer trees than it takes.
  let unreached : Reduced V := ⟨node, .ofComputed (.one "any") 0 none⟩
  cases node with
  | literal w value verbatim =>
      refine ⟨fun _ => o.literal value verbatim, ?_, fun xs h => ?_⟩
      · rw [reduceAt, hcheck]
        rfl
      · cases h
        exact .literal
  | identifier w name =>
      refine ⟨fun _ => o.identifier name, ?_, fun xs h => ?_⟩
      · rw [reduceAt, hcheck]
        rfl
      · cases h
        exact .identifier
  | unary w op operand =>
      refine ⟨fun xs => xs.head?.elim (.ok unreached) (o.unary op), ?_, fun xs h => ?_⟩
      · rw [reduceAt, hcheck, findings_of_children rfl, Node.children, reduceAll, reduceAll]
        cases o.reduceAt (level + 1) operand <;> rfl
      · rw [findings_of_children rfl, reduceAll_eq_ok_iff] at h
        obtain _ | ⟨-, _ | _⟩ := h
        exact .unary
  | binary w op left right =>
      refine ⟨fun xs => xs.head?.elim (.ok unreached) fun x => xs[1]?.elim (.ok unreached) (o.binary op x),
        ?_, fun xs h => ?_⟩
      · rw [reduceAt, hcheck, findings_of_children rfl, Node.children, reduceAll, reduceAll, reduceAll]
        cases o.reduceAt (level + 1) left
        · rfl
        · cases o.reduceAt (level + 1) right <;> rfl
      · rw [findings_of_children rfl, reduceAll_eq_ok_iff] at h
        obtain _ | ⟨-, _ | ⟨-, _ | _⟩⟩ := h
        exact .binary
  | logical w op operands =>
      refine ⟨o.logical op, ?_, fun xs _ => .logical⟩
      rw [reduceAt, hcheck, findings_of_children rfl]
      rfl
  | array w elements =>
      refine ⟨o.array w, ?_, fun xs _ => .array⟩
      rw [reduceAt, hcheck, findings_of_children rfl]
      rfl
  | conditional w test consequent alternate =>
      refine ⟨fun xs => xs.head?.elim (.ok unreached) fun x => xs[1]?.elim (.ok unreached) fun y =>
        xs[2]?.elim (.ok unreached) (o.conditional x y), ?_, fun xs h => ?_⟩
      · rw [reduceAt, hcheck, findings_of_children rfl, Node.children, reduceAll, reduceAll, reduceAll,
          reduceAll]
        cases o.reduceAt (level + 1) test
        · rfl
        · cases o.reduceAt (level + 1) consequent
          · rfl
          · cases o.reduceAt (level + 1) alternate <;> rfl
      · rw [findings_of_children rfl, reduceAll_eq_ok_iff] at h
        obtain _ | ⟨-, _ | ⟨-, _ | ⟨-, _ | _⟩⟩⟩ := h
        exact .conditional
  | sequence w expressions =>
      refine ⟨o.sequence, ?_, fun xs _ => .sequence⟩
      rw [reduceAt, hcheck, findings_of_children rfl]
      rfl
  | call w callee arguments =>
      refine ⟨fun xs => xs.head?.elim (.ok unreached) fun x =>
        (o.callee? x).elim (fault (.call w x.node arguments)
          (.notCallable ("`" ++ x.node.text ++ "` is not a feature"))) (o.call w · x xs.tail), ?_,
        fun xs h => ?_⟩
      · rw [reduceAt_call_eq hlevel, findings, visits, calleeFeature?, List.mapM_cons, Visit.outcome]
        cases o.reduceAt (level + 1) callee with
        | error e => rfl
        | ok x =>
            cases hcallee : o.callee? x with
            | none => simp [bind, Except.bind, pure, Except.pure, hcallee]
            | some feature =>
                simp only [bind, Except.bind, pure, Except.pure, hcallee]
                cases (arguments.map (argumentVisit feature)).mapM (Visit.outcome o (level + 1)) with
                | error e => rfl
                | ok xs =>
                    dsimp only
                    rw [List.head?_cons, Option.elim_some, hcallee, Option.elim_some, List.tail_cons]
      · rw [findings, visits, calleeFeature?, mapM_eq_ok_iff] at h
        obtain _ | @⟨_, x, _, xs, hx, hxs⟩ := h
        rw [Visit.outcome] at hx
        rw [hx] at hxs
        dsimp only at hxs ⊢
        rw [List.head?_cons, Option.elim_some]
        cases hcallee : o.callee? x with
        | some feature => exact .call hcallee
        | none =>
            rw [hcallee] at hxs
            cases hxs
            exact .notCallable hcallee
  | member w object path =>
      refine ⟨fun xs => xs.head?.elim (.ok unreached) (o.member w · path), ?_, fun xs h => ?_⟩
      · rw [reduceAt, hcheck, findings_of_children rfl, Node.children, reduceAll, reduceAll]
        cases o.reduceAt (level + 1) object <;> rfl
      · rw [findings_of_children rfl, reduceAll_eq_ok_iff] at h
        obtain _ | ⟨-, _ | _⟩ := h
        exact .member

/-- Where all visits are accepted, validation is the rule of the node. -/
theorem rule_of_visits (hlevel : level ≤ o.config.maxDepth)
    (accepted : List.Forall₂ (fun visit x => visit.outcome o (level + 1) = .ok x)
      (o.visits level node) xs) : o.Rule node xs (o.reduceAt level node) := by
  obtain ⟨rule, heq, hrule⟩ := exists_rule hlevel node
  have hfindings : o.findings level node = .ok xs := mapM_eq_ok_iff.mpr accepted
  rw [heq, hfindings]
  exact hrule xs hfindings

/-- The first visit that fails is how validation fails. -/
theorem reduceAt_of_first (hlevel : level ≤ o.config.maxDepth) {before after : List Visit}
    {visit : Visit} (split : o.visits level node = before ++ visit :: after)
    (accepted : ∀ v ∈ before, v.Accepted o (level + 1))
    (fails : visit.outcome o (level + 1) = .error e) : o.reduceAt level node = .error e := by
  obtain ⟨rule, heq, -⟩ := exists_rule hlevel node
  rw [heq, findings, split, mapM_of_first accepted fails]
  rfl

/-- The rule of a node is a function of what was found. -/
theorem Rule.unique {a b : Except RuleError (Reduced V)} (h : o.Rule node xs a) (h' : o.Rule node xs b) :
    a = b := by
  cases h with
  | notCallable unknown =>
      cases h' with
      | notCallable _ => rfl
      | call known => exact absurd (unknown.symm.trans known) nofun
  | call known =>
      cases h' with
      | notCallable unknown => exact absurd (unknown.symm.trans known) nofun
      | call known' =>
          cases known.symm.trans known'
          rfl
  | _ => cases h'; rfl

/-- Validation fails as the first visit that fails, or else as the rule of the node. -/
theorem reduceAt_eq_error_iff (hlevel : level ≤ o.config.maxDepth) :
    o.reduceAt level node = .error e ↔
      (∃ before visit after, o.visits level node = before ++ visit :: after ∧
          (∀ v ∈ before, v.Accepted o (level + 1)) ∧ visit.outcome o (level + 1) = .error e) ∨
        ∃ xs, List.Forall₂ (fun visit x => visit.outcome o (level + 1) = .ok x)
            (o.visits level node) xs ∧ o.Rule node xs (.error e) := by
  constructor
  · intro h
    rcases forall₂_or_first (Visit.outcome o (level + 1)) (o.visits level node) with
      ⟨xs, accepted⟩ | ⟨before, visit, after, e', split, accepted, fails⟩
    · have hrule := rule_of_visits hlevel accepted
      rw [h] at hrule
      exact .inr ⟨xs, accepted, hrule⟩
    · cases h.symm.trans (reduceAt_of_first hlevel split accepted fails)
      exact .inl ⟨before, visit, after, split, accepted, fails⟩
  · rintro (⟨before, visit, after, split, accepted, fails⟩ | ⟨xs, accepted, faulty⟩)
    · exact reduceAt_of_first hlevel split accepted fails
    · exact (rule_of_visits hlevel accepted).unique faulty

/-- A validated node stands at one of the levels. -/
theorem le_of_reduceAt {r : Reduced V} (h : o.reduceAt level node = .ok r) : level ≤ o.config.maxDepth := by
  refine Nat.not_lt.mp fun deep => ?_
  rw [reduceAt_of_lt deep] at h
  cases h

/-- A validated node is what its rule makes of what was found below it. -/
theorem exists_rule_of_reduceAt {r : Reduced V} (h : o.reduceAt level node = .ok r) :
    ∃ xs, List.Forall₂ (fun visit x => visit.outcome o (level + 1) = .ok x) (o.visits level node) xs ∧
      o.Rule node xs (.ok r) := by
  rcases forall₂_or_first (Visit.outcome o (level + 1)) (o.visits level node) with
    ⟨xs, accepted⟩ | ⟨before, failing, after, e, split, accepted, fails⟩
  · refine ⟨xs, accepted, ?_⟩
    rw [← h]
    exact rule_of_visits (le_of_reduceAt h) accepted
  · rw [reduceAt_of_first (le_of_reduceAt h) split accepted fails] at h
    cases h

/-- Below a validated node all visits are accepted. -/
theorem accepted_of_reduceAt {r : Reduced V} (h : o.reduceAt level node = .ok r) {visit : Visit}
    (mem : visit ∈ o.visits level node) : visit.Accepted o (level + 1) := by
  obtain ⟨xs, accepted, -⟩ := exists_rule_of_reduceAt h
  obtain ⟨x, -, hx⟩ := exists_of_mem_forall₂ accepted.flip mem
  exact ⟨x, hx⟩

/-! ### What is visited -/

/-- What is validated below a node is a direct subtree. -/
theorem mem_children_of_visits {child : Node} (h : Visit.validated child ∈ o.visits level node) :
    child ∈ node.children := by
  cases node with
  | call w callee arguments =>
      rw [visits] at h
      rcases List.mem_cons.mp h with h | h
      · cases h
        exact List.mem_cons_self
      · refine List.mem_cons_of_mem _ ?_
        split at h
        · obtain ⟨argument, hargument, h⟩ := List.mem_map.mp h
          unfold argumentVisit at h
          split at h
          · cases h
          · cases h
            exact hargument
        · exact absurd h List.not_mem_nil
  | _ =>
      obtain ⟨_, mem, h⟩ := List.mem_map.mp h
      cases h
      exact mem

/-- A callee turns out to be a feature that is known under a name. -/
theorem exists_of_calleeFeature? {callee : Node} {feature : StaticFeature V}
    (h : o.calleeFeature? level callee = some feature) : ∃ name, o.feature? name = some feature := by
  unfold calleeFeature? at h
  split at h
  · obtain ⟨name, -, known⟩ := callee?_eq_some h
    exact ⟨name, known⟩
  · cases h

/-- A compiled visit is one of an argument of a call, by the compiler of the feature that is called. -/
theorem exists_call_of_visits {compile : Node → Except RuleError String} {argument : Node}
    (h : Visit.compiled compile argument ∈ o.visits level node) :
    ∃ w callee arguments feature, node = .call w callee arguments ∧
      o.calleeFeature? (level + 1) callee = some feature ∧ feature.argumentCompiler? = some compile ∧
      argument ∈ arguments := by
  cases node with
  | call w callee arguments =>
      rw [visits] at h
      rcases List.mem_cons.mp h with h | h
      · cases h
      · split at h
        · rename_i feature hcallee
          obtain ⟨other, mem, h⟩ := List.mem_map.mp h
          unfold argumentVisit at h
          split at h
          · rename_i compile' hcompiler
            cases h
            exact ⟨w, callee, arguments, feature, rfl, hcallee, hcompiler, mem⟩
          · cases h
        · exact absurd h List.not_mem_nil
  | _ =>
      obtain ⟨_, _, h⟩ := List.mem_map.mp h
      cases h

/-- A compiled visit is one of an argument of a known feature. -/
theorem exists_feature_of_visits {compile : Node → Except RuleError String} {argument : Node}
    (h : Visit.compiled compile argument ∈ o.visits level node) :
    ∃ name feature, o.feature? name = some feature ∧ feature.argumentCompiler? = some compile := by
  obtain ⟨w, callee, arguments, feature, rfl, hcallee, hcompiler, -⟩ := exists_call_of_visits h
  obtain ⟨name, known⟩ := exists_of_calleeFeature? hcallee
  exact ⟨name, feature, known, hcompiler⟩

/-- No feature compiles its arguments. -/
def Uncompiled (o : Optimizer V) : Prop :=
  ∀ name feature, o.feature? name = some feature → feature.argumentCompiler? = none

/-- Where no feature compiles its arguments, none is visited to be compiled. -/
theorem Uncompiled.not_mem_visits (h : o.Uncompiled) {compile : Node → Except RuleError String}
    {argument : Node} : Visit.compiled compile argument ∉ o.visits level node := by
  intro mem
  obtain ⟨name, feature, known, hcompile⟩ := exists_feature_of_visits mem
  rw [h name feature known] at hcompile
  cases hcompile

end Optimizer

end RuleLang
