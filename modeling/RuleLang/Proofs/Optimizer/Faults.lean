import RuleLang.Domain.Concrete
import RuleLang.Proofs.Optimizer.Visits
import RuleLang.Sql.Domain

/-!
# The faults of rules

A rule blames the node as it stands. What it blames the node for is a fault of that node, or the refusal of
a feature to describe a call; no rule looks at the nesting level.

* `RuleError.NamesOnce`: an error that names a node, with a cause that names none.
* `RuleError.IsFault`: the causes that a rule may find at a node.
* `Domain.IsStandard`: the domain of values and the domain of SQL.
* `Optimizer.Rule.failure`: how a rule fails.
* `Optimizer.Rule.blames`: what a rule fails with blames a node for such a cause.
* `Optimizer.Rule.namesOnce`: the fault of a rule names one node.
-/

namespace RuleLang

/-- An error that names a node, with a cause that names none. -/
def RuleError.NamesOnce (e : RuleError) : Prop :=
  ∃ node cause, e = .invalidNode node cause ∧ cause.isInvalidNode = false

/-- Blame names a node once: if none is named yet, or one is. -/
theorem RuleError.namesOnce_blameNode (node : Node) {e : RuleError}
    (h : e.isInvalidNode = false ∨ e.NamesOnce) : (e.blameNode node).NamesOnce := by
  rcases h with h | ⟨inner, cause, rfl, hcause⟩
  · cases e with
    | invalidNode inner cause => cases h
    | _ => exact ⟨node.compactJson, _, rfl, rfl⟩
  · exact ⟨inner, cause, rfl, hcause⟩

namespace RuleError

/-- What may be wrong with a node over subtrees that are in order. Rules render literals alone, so that a
constant is never missing. -/
inductive IsFault : RuleError → Prop
  | unknownIdentifier (name : String) : IsFault (unknownIdentifier name)
  | unknownPath (path : String) : IsFault (unknownPath path)
  | unsupportedOperator (operator domain : String) : IsFault (unsupportedOperator operator domain)
  | notCallable (reason : String) : IsFault (notCallable reason)
  | typeError (reason : String) : IsFault (typeError reason)

variable {e : RuleError}

/-- A fault of a node does not name a node itself. -/
theorem IsFault.isInvalidNode (h : e.IsFault) : e.isInvalidNode = false := by
  cases h <;> rfl

/-- A fault is its own root, and it is not that the limit of nesting is exceeded. -/
theorem IsFault.rootCause_ne (h : e.IsFault) (limit : Nat) : e.rootCause ≠ .depthExceeded limit := by
  cases h <;> nofun

/-- A missing constant is no fault of a node. -/
theorem IsFault.rootCause_ne_notConstant (h : e.IsFault) (reason : String) :
    e.rootCause ≠ .notConstant reason := by
  cases h <;> nofun

/-- Naming a node leaves the cause. -/
theorem rootCause_blameNode (node : Node) (e : RuleError) :
    (e.blameNode node).rootCause = e.rootCause := by
  cases e <;> rfl

/-- An error that blames a node for a fault of its own. -/
def BlamesFault (e : RuleError) : Prop :=
  ∃ node cause, IsFault cause ∧ e = cause.blameNode node

/-- What is blamed on a node is no missing constant. -/
theorem BlamesFault.rootCause_ne_notConstant (h : e.BlamesFault) (reason : String) :
    e.rootCause ≠ .notConstant reason := by
  obtain ⟨node, cause, hcause, rfl⟩ := h
  rw [rootCause_blameNode]
  exact hcause.rootCause_ne_notConstant reason

end RuleError

/-- A traversal fails as one of its items. -/
theorem exists_of_mapM_eq_error {ε α β : Type} {f : α → Except ε β} {xs : List α} {e : ε}
    (h : xs.mapM f = .error e) : ∃ x ∈ xs, f x = .error e := by
  rcases forall₂_or_first f xs with ⟨ys, hys⟩ | ⟨before, x, after, e', rfl, accepted, fails⟩
  · rw [mapM_eq_ok_iff.mpr hys] at h
    cases h
  · rw [mapM_of_first accepted fails] at h
    cases h
    exact ⟨x, by simp, fails⟩

/-- Changing an answer keeps the failures. -/
theorem map_eq_error_iff {ε α β : Type} {x : Except ε α} {f : α → β} {e : ε} :
    x.map f = .error e ↔ x = .error e := by
  cases x <;> simp [Except.map]

/-! ### The domains -/

/-- The domain of values and the domain of SQL. -/
inductive Domain.IsStandard : {V : Type} → Domain V → Prop
  | concrete : IsStandard concreteDomain
  | sql : IsStandard Sql.domain

namespace Sql

/-- A scalar that cannot be written is a fault. -/
theorem isFault_scalar {value : Value} {e : RuleError} (h : scalar value = .error e) :
    e.IsFault := by
  cases value <;> cases h <;> constructor

/-- An item of a list that cannot be written is a fault. -/
theorem isFault_listItem {value : Value} {e : RuleError} (h : listItem value = .error e) :
    e.IsFault := by
  unfold listItem at h
  split at h
  · cases h
  · exact isFault_scalar h

/-- A literal that cannot be written in SQL is a fault. -/
theorem isFault_renderLiteral {value : Value} {verbatim : Bool} {e : RuleError}
    (h : renderLiteral value verbatim = .error e) : e.IsFault := by
  unfold renderLiteral at h
  split at h
  · cases h
  · cases h
  · obtain ⟨item, -, hitem⟩ := exists_of_mapM_eq_error (map_eq_error_iff.mp h)
    exact isFault_listItem hitem
  · exact isFault_scalar (map_eq_error_iff.mp h)

/-- An element that cannot be written in SQL is a fault. -/
theorem isFault_renderElement {value : Value} {verbatim : Bool} {e : RuleError}
    (h : renderElement value verbatim = .error e) : e.IsFault := by
  unfold renderElement at h
  split at h
  · exact isFault_listItem (map_eq_error_iff.mp h)
  · exact isFault_renderLiteral h

/-- An operator that SQL does not have is a fault. -/
theorem isFault_binary {op : BinaryOp} {left right : Fragment} {e : RuleError}
    (h : binary op left right = .error e) : e.IsFault := by
  unfold binary at h
  split at h
  · cases h
  · cases h
  · split at h
    · cases h
    · cases h
      exact .unsupportedOperator _ _

end Sql

namespace Domain.IsStandard

variable {V : Type} {domain : Domain V} {e : RuleError}

/-- A literal that a domain refuses is a fault. -/
theorem isFault_renderLiteral (hd : domain.IsStandard) {value : Value} {verbatim : Bool}
    (h : domain.renderLiteral value verbatim = .error e) : e.IsFault := by
  cases hd with
  | concrete => cases h
  | sql => exact Sql.isFault_renderLiteral h

/-- An element that a domain refuses is a fault. -/
theorem isFault_renderElement (hd : domain.IsStandard) {value : Value} {verbatim : Bool}
    (h : domain.renderElement value verbatim = .error e) : e.IsFault := by
  cases hd with
  | concrete => cases h
  | sql => exact Sql.isFault_renderElement h

/-- An operator that a domain refuses is a fault. -/
theorem isFault_binary (hd : domain.IsStandard) {op : BinaryOp} {a b : V}
    (h : domain.binary op a b = .error e) : e.IsFault := by
  cases hd with
  | concrete => cases h
  | sql => exact Sql.isFault_binary h

end Domain.IsStandard

/-! ### The rules -/

namespace Optimizer

variable {V : Type} {o : Optimizer V} {e : RuleError}

/-- A fault is blamed on the node at which it arises. -/
theorem blames_of_fault {node : Node} {cause : RuleError} (hcause : cause.IsFault)
    (h : (fault node cause : Except RuleError (Reduced V)) = .error e) : e.BlamesFault := by
  cases h
  exact ⟨node, cause, hcause, rfl⟩

/-- A literal is refused for a fault of its own. -/
theorem blames_of_literal (hd : o.domain.IsStandard) {value : Value} {verbatim : Bool}
    (h : o.literal value verbatim = .error e) : e.BlamesFault := by
  unfold literal at h
  split at h
  · cases h
  · rename_i cause hrender
    exact blames_of_fault (hd.isFault_renderLiteral hrender) h

/-- What folds is refused for a fault of the literal. -/
theorem blames_of_fold (hd : o.domain.IsStandard) {value : V} (h : o.fold value = .error e) :
    e.BlamesFault :=
  blames_of_literal hd h

/-- A name is refused for a fault of its own. -/
theorem blames_of_identifier (hd : o.domain.IsStandard) {name : String}
    (h : o.identifier name = .error e) : e.BlamesFault := by
  unfold identifier at h
  split at h
  · cases h
  · split at h
    · exact blames_of_fault (.unknownIdentifier name) h
    · split at h
      · exact blames_of_fold hd h
      · cases h

/-- An operator in front of an operand is refused for a fault of its own. -/
theorem blames_of_unary (hd : o.domain.IsStandard) {op : UnaryOp} {x : Reduced V}
    (h : o.unary op x = .error e) : e.BlamesFault := by
  unfold unary at h
  split at h
  · exact blames_of_fold hd h
  · cases h

/-- An operator between operands is refused for a fault of its own. -/
theorem blames_of_binary (hd : o.domain.IsStandard) {op : BinaryOp} {x y : Reduced V}
    (h : o.binary op x y = .error e) : e.BlamesFault := by
  unfold binary at h
  dsimp only at h
  split at h
  · split at h
    · exact blames_of_fold hd h
    · rename_i cause hbinary
      exact blames_of_fault (hd.isFault_binary hbinary) h
  · cases h

/-- A chain is refused for a fault of its own. -/
theorem blames_of_logical (hd : o.domain.IsStandard) {op : LogicalOp} {xs : List (Reduced V)}
    (h : o.logical op xs = .error e) : e.BlamesFault := by
  unfold logical at h
  split at h
  · exact blames_of_fold hd h
  · split at h
    · cases h
    · split at h
      · exact blames_of_literal hd h
      · cases h
      · split at h
        · exact blames_of_fold hd h
        · cases h

/-- A literal that is refused as an element is a fault. -/
theorem isFault_element (hd : o.domain.IsStandard) {node : Node} (literal : node.isLiteral)
    (h : o.element node = .error e) : e.IsFault := by
  cases node with
  | literal w value verbatim => exact hd.isFault_renderElement h
  | _ => exact absurd literal Bool.false_ne_true

/-- An array is refused for a fault of its own. -/
theorem blames_of_array (hd : o.domain.IsStandard) {w : Weight} {xs : List (Reduced V)}
    (h : o.array w xs = .error e) : e.BlamesFault := by
  unfold array at h
  dsimp only at h
  split at h
  · exact blames_of_literal hd h
  · split at h
    · rename_i literals
      split at h
      · exact blames_of_fold hd h
      · rename_i cause helements
        obtain ⟨node, mem, hnode⟩ := exists_of_mapM_eq_error helements
        exact blames_of_fault (isFault_element hd (List.all_eq_true.mp literals node mem) hnode) h
    · cases h

/-- A conditional is refused for a fault of its own. -/
theorem blames_of_conditional (hd : o.domain.IsStandard) {x y z : Reduced V}
    (h : o.conditional x y z = .error e) : e.BlamesFault := by
  unfold conditional at h
  split at h
  · cases h
  · split at h
    · exact blames_of_fold hd h
    · cases h

/-- A sequence is refused for a fault of its own. -/
theorem blames_of_sequence (hd : o.domain.IsStandard) {xs : List (Reduced V)}
    (h : o.sequence xs = .error e) : e.BlamesFault := by
  unfold sequence at h
  split at h
  · exact blames_of_literal hd h
  · split at h <;> cases h

/-- A call is refused for a fault of its own, or because its feature refuses the arguments. -/
theorem blames_of_call (hd : o.domain.IsStandard) {w : Weight} {feature : StaticFeature V}
    {x : Reduced V} {xs : List (Reduced V)} (h : o.call w feature x xs = .error e) :
    e.BlamesFault ∨ ∃ place cause, feature.describe (xs.map Reduced.result) = .error cause ∧
      e = cause.blameNode place := by
  unfold call at h
  dsimp only at h
  split at h
  · rename_i cause hdescribe
    cases h
    exact .inr ⟨_, cause, hdescribe, rfl⟩
  · split at h
    · exact .inl (blames_of_fold hd h)
    · cases h

/-- A member of a declared shape is refused for a fault of its own. -/
theorem blames_of_declaredMember (hd : o.domain.IsStandard) {node : Node} {x : Reduced V}
    {shape : Shape} {path : Path} (h : o.declaredMember node x shape path = .error e) :
    e.BlamesFault := by
  unfold declaredMember at h
  split at h
  · exact blames_of_fault (.unknownPath _) h
  · split at h
    · exact blames_of_fold hd h
    · cases h

/-- A member access is refused for a fault of its own. -/
theorem blames_of_member (hd : o.domain.IsStandard) {w : Weight} {x : Reduced V} {path : Path}
    (h : o.member w x path = .error e) : e.BlamesFault := by
  unfold member literalMember at h
  dsimp only at h
  split at h
  · split at h
    · exact blames_of_fault (.typeError _) h
    · split at h
      · exact blames_of_literal hd h
      · exact blames_of_fault (.unknownPath _) h
  · split at h
    · exact blames_of_declaredMember hd h
    · exact blames_of_declaredMember hd h
    · exact blames_of_fault (.typeError _) h
    · cases h

/-- How the rule of a node fails: it blames a node for a fault, or for what the description of the feature
that is called fails with. -/
inductive RuleFailure (o : Optimizer V) : Node → List (Reduced V) → RuleError → Prop
  | fault {node : Node} {xs : List (Reduced V)} {e : RuleError} (blames : e.BlamesFault) :
      RuleFailure o node xs e
  | description {w : Weight} {callee : Node} {arguments : List Node} {x : Reduced V}
      {xs : List (Reduced V)} {feature : StaticFeature V} {cause : RuleError} (place : Node)
      (known : o.callee? x = some feature)
      (refused : feature.describe (xs.map Reduced.result) = .error cause) :
      RuleFailure o (.call w callee arguments) (x :: xs) (cause.blameNode place)

/-- A rule fails in one of these ways. -/
theorem Rule.failure {node : Node} {xs : List (Reduced V)} (h : o.Rule node xs (.error e))
    (hd : o.domain.IsStandard) : o.RuleFailure node xs e := by
  generalize hresult : Except.error e = result at h
  cases h with
  | literal => exact .fault (blames_of_literal hd hresult.symm)
  | identifier => exact .fault (blames_of_identifier hd hresult.symm)
  | unary => exact .fault (blames_of_unary hd hresult.symm)
  | binary => exact .fault (blames_of_binary hd hresult.symm)
  | logical => exact .fault (blames_of_logical hd hresult.symm)
  | array => exact .fault (blames_of_array hd hresult.symm)
  | conditional => exact .fault (blames_of_conditional hd hresult.symm)
  | sequence => exact .fault (blames_of_sequence hd hresult.symm)
  | notCallable unknown => exact .fault (blames_of_fault (.notCallable _) hresult.symm)
  | call known =>
      rcases blames_of_call hd hresult.symm with hfault | ⟨place, cause, refused, rfl⟩
      · exact .fault hfault
      · exact .description place known refused
  | member => exact .fault (blames_of_member hd hresult.symm)

/-- What a rule may blame a node for: a fault of the node, or what the description of a feature fails
with. -/
def Finds (o : Optimizer V) (cause : RuleError) : Prop :=
  cause.IsFault ∨ ∃ name feature results,
    o.feature? name = some feature ∧ feature.describe results = .error cause

/-- An error that blames a node for such a cause. -/
def Blames (o : Optimizer V) (e : RuleError) : Prop :=
  ∃ node cause, o.Finds cause ∧ e = cause.blameNode node

/-- What a rule fails with blames a node for a fault, or for what a feature fails with. -/
theorem Rule.blames {node : Node} {xs : List (Reduced V)} (h : o.Rule node xs (.error e))
    (hd : o.domain.IsStandard) : o.Blames e := by
  cases h.failure hd with
  | fault blames =>
      obtain ⟨place, cause, hcause, rfl⟩ := blames
      exact ⟨place, cause, .inl hcause, rfl⟩
  | description place known refused =>
      obtain ⟨name, -, hfeature⟩ := callee?_eq_some known
      exact ⟨place, _, .inr ⟨name, _, _, hfeature, refused⟩, rfl⟩

/-- The fault of a rule names one node, where the descriptions of features name none. -/
theorem Rule.namesOnce {node : Node} {xs : List (Reduced V)} (h : o.Rule node xs (.error e))
    (hd : o.domain.IsStandard)
    (describes : ∀ name feature, o.feature? name = some feature → ∀ results cause,
      feature.describe results = .error cause → cause.isInvalidNode = false) : e.NamesOnce := by
  obtain ⟨place, cause, hfinds, rfl⟩ := h.blames hd
  refine RuleError.namesOnce_blameNode place (.inl ?_)
  rcases hfinds with hfault | ⟨name, feature, results, known, refused⟩
  · exact hfault.isInvalidNode
  · exact describes name feature known results cause refused

end Optimizer

end RuleLang
