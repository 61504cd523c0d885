import RuleLang.Proofs.Evaluation.Answers
import RuleLang.Proofs.Node.Induction
import RuleLang.Proofs.Node.Subtree

/-!
# How an evaluation can fail

Where every call names a feature, the evaluation of a tree fails in one of three ways: the call of a
feature failed, a member is missing and members are strict, or a feature is used as a value.

* `Computation.CanEnd`: the outcomes that a computation can have.
* `Computation.FailsWith`: what is true of every failure of a computation.
* `Evaluator.Failure`: the three ways, each with the place in the tree at which it arises.
* `Evaluator.failsWith_valueOf`: there is no other way.
-/

namespace RuleLang

namespace Computation

variable {ω ε α β : Type}

/-- A computation can have an outcome, for some answers of the world when it acts. -/
def CanEnd : Computation ω ε α → Except ε α → Prop
  | finished outcome, other => outcome = other
  | act _ next, other => ∃ w, CanEnd (next w) other
  | suspended next, other => CanEnd next other

variable {c : Computation ω ε α} {P Q : Except ε α → Prop}

/-- A computation ends with an outcome that it can have. -/
theorem ends_canEnd (c : Computation ω ε α) : c.Ends c.CanEnd := by
  induction c with
  | finished outcome => exact rfl
  | act effect next ih => exact fun w => (ih w).mono fun outcome h => ⟨w, h⟩
  | suspended next ih => exact ih

/-- An outcome that a computation can have is like all its outcomes. -/
theorem Ends.of_canEnd {outcome : Except ε α} (h : c.Ends P) (hcan : c.CanEnd outcome) : P outcome := by
  induction c with
  | finished other =>
      cases hcan
      exact h
  | act effect next ih =>
      obtain ⟨w, hw⟩ := hcan
      exact ih w (h w) hw
  | suspended next ih => exact ih h hcan

/-- Two things that are known of every end are known together. -/
theorem Ends.and (h : c.Ends P) (h' : c.Ends Q) : c.Ends fun outcome => P outcome ∧ Q outcome := by
  induction c with
  | finished outcome => exact ⟨h, h'⟩
  | act effect next ih => exact fun w => ih w (h w) (h' w)
  | suspended next ih => exact ih h h'

/-- Every failure of a computation has a property. -/
def FailsWith (c : Computation ω ε α) (F : ε → Prop) : Prop :=
  c.Ends fun outcome => ∀ e, outcome = .error e → F e

variable {F : ε → Prop}

/-- An answer that is given at once is no failure. -/
theorem failsWith_pure (a : α) : (pure a : Computation ω ε α).FailsWith F :=
  fun e he => (by cases he)

/-- A failure at once is that failure. -/
theorem failsWith_fail {e : ε} (h : F e) : (fail e : Computation ω ε α).FailsWith F := by
  intro e' he
  cases he
  exact h

/-- Changing the answer keeps the failures. -/
theorem FailsWith.map (h : c.FailsWith F) (f : α → β) : (map f c).FailsWith F := by
  apply ends_mapOutcome.mpr
  apply Ends.mono h
  intro outcome houtcome e he
  cases outcome with
  | ok a => cases he
  | error e' =>
      cases he
      exact houtcome e rfl

/-- One computation after another fails as the first does, or as the second does on an answer that the
first can have. -/
theorem FailsWith.bind {next : α → Computation ω ε β} (h : c.FailsWith F)
    (hnext : ∀ a, c.CanEnd (.ok a) → (next a).FailsWith F) : (bind c next).FailsWith F := by
  apply ends_bind (Ends.and h (ends_canEnd c))
  · intro a ha
    exact hnext a ha.2
  · intro e he e' heq
    cases heq
    exact he.1 e rfl

/-- Computations one after another fail as one of them does. -/
theorem failsWith_inOrder {cs : List (Computation ω ε α)} (h : ∀ c ∈ cs, c.FailsWith F) (last : α) :
    (inOrder last cs).FailsWith F := by
  induction cs generalizing last with
  | nil => exact failsWith_pure last
  | cons c cs ih =>
      rw [List.forall_mem_cons] at h
      exact h.1.bind fun a _ => ih h.2 a

end Computation

open RuleLang.Computation

/-- Two computations side by side fail as one of them does. -/
theorem Combinators.failsWith_both {ω ε α : Type} (combinators : Combinators ω ε α) {F : ε → Prop}
    {c d : Computation ω ε α} (h : c.FailsWith F) (hd : d.FailsWith F) :
    (combinators.both c d).FailsWith F := by
  refine (combinators.ends_both h hd).mono ?_
  intro outcome houtcome e he
  subst he
  rcases houtcome with hleft | hright
  · exact hleft e rfl
  · exact hright e rfl

namespace Evaluator

variable {ω : Type} {e : Evaluator ω} {scope : Scope} {F : RuleError → Prop}

/-- Parts fail as one of them does, however many of them are under way. -/
theorem failsWith_gather {cs : List (Computation ω RuleError Value)} (h : ∀ c ∈ cs, c.FailsWith F) :
    (e.gather cs).FailsWith F := by
  have hparts : EndAs (cs.map fun _ outcome => ∀ err, outcome = .error err → F err) cs := by
    rw [EndAs, List.forall₂_map_left_iff, List.forall₂_same]
    exact h
  refine (ends_gather hparts).mono ?_
  intro outcome houtcome err herr
  subst herr
  obtain ⟨P, hP, hfails⟩ := houtcome
  obtain ⟨c, -, rfl⟩ := List.mem_map.mp hP
  exact hfails err rfl

/-- Operands up to the first that decides fail as one of them does. -/
theorem failsWith_firstDeciding (op : LogicalOp) {cs : List (Computation ω RuleError Value)}
    (h : ∀ c ∈ cs, c.FailsWith F) (last : Value) : (firstDeciding op last cs).FailsWith F := by
  induction cs generalizing last with
  | nil => exact failsWith_pure last
  | cons c cs ih =>
      rw [List.forall_mem_cons] at h
      rw [firstDeciding]
      apply h.1.bind
      intro value _
      split
      · exact failsWith_pure value
      · exact ih h.2 value

/-- A chain fails as one of its operands does. -/
theorem failsWith_chain (op : LogicalOp) {operands : List (Weight × Computation ω RuleError Value)}
    (h : ∀ x ∈ operands, x.2.FailsWith F) : (chain op operands).FailsWith F := by
  cases operands with
  | nil => exact failsWith_pure _
  | cons x rest =>
      apply failsWith_firstDeciding
      intro c hc
      obtain ⟨y, hy, rfl⟩ := List.mem_map.mp hc
      exact h y ((byWeight_perm (x :: rest)).mem_iff.mp hy)

/-! ### Trees -/

/-- The ways in which the evaluation of a tree may fail. -/
inductive Failure (e : Evaluator ω) (scope : Scope) (tree : Node) : RuleError → Prop
  /-- The call of a feature failed, on values that the arguments can have. -/
  | call {w u : Weight} {name : String} {arguments : List Node} {feature : Feature ω}
      {values : List Value} {cause : RuleError}
      (site : Node.Subtree (.call w (.identifier u name) arguments) tree)
      (registered : e.feature? name = some feature)
      (answered : (e.gather (e.valuesOf scope arguments)).CanEnd (.ok values))
      (failed : (feature.call scope values).CanEnd (.error cause)) :
      Failure e scope tree (.featureFailed name cause)
  /-- A member is missing from a value that the object can have, and members are strict. -/
  | missing {w : Weight} {object : Node} {path : Path} {value : Value}
      (strict : e.config.strictMembers = true) (site : Node.Subtree (.member w object path) tree)
      (answered : (e.valueOf scope object).CanEnd (.ok value)) (absent : value.getPath? path = none) :
      Failure e scope tree (.unknownPath (object.text ++ path.text))
  /-- The name of a feature stands where it is not called. -/
  | uncalled {name : String} (site : name ∈ tree.valueNames)
      (registered : (e.feature? name).isSome) :
      Failure e scope tree (.notCallable ("feature `" ++ name ++ "` can only be called"))

/-- A failure in an operand is one of the tree. -/
theorem Failure.of_operand {tree operand : Node} {err : RuleError} (h : Failure e scope operand err)
    (hoperand : operand ∈ tree.operands) : Failure e scope tree err := by
  have hchild := Node.operands_subset tree hoperand
  cases h with
  | call site registered answered failed => exact .call (.child hchild site) registered answered failed
  | missing strict site answered absent => exact .missing strict (.child hchild site) answered absent
  | uncalled site registered => exact .uncalled (Node.valueNames_subset hoperand site) registered

/-- Every call in a tree calls a feature. -/
def CallsFeatures (e : Evaluator ω) (tree : Node) : Prop :=
  ∀ w callee arguments, Node.Subtree (.call w callee arguments) tree →
    ∃ name feature, e.callee? callee = some (name, feature)

/-- What is part of a tree that calls features only calls features only. -/
theorem CallsFeatures.of_operand {tree operand : Node} (h : e.CallsFeatures tree)
    (hoperand : operand ∈ tree.operands) : e.CallsFeatures operand :=
  fun w callee arguments hsite =>
    h w callee arguments (.child (Node.operands_subset tree hoperand) hsite)

/-- The name of a callee that is a feature. -/
theorem eq_of_callee? {callee : Node} {name : String} {feature : Feature ω}
    (h : e.callee? callee = some (name, feature)) :
    (∃ u, callee = .identifier u name) ∧ e.feature? name = some feature := by
  unfold callee? at h
  cases callee with
  | identifier u called =>
      obtain ⟨found, hfound, heq⟩ := Option.map_eq_some_iff.mp h
      cases heq
      exact ⟨⟨u, rfl⟩, hfound⟩
  | _ => cases h

/-- Where every call calls a feature, an evaluation fails in one of the three ways. The induction is on
the tree; what fails below the root is a failure of an operand. -/
theorem failsWith_valueOf {tree : Node} (calls : e.CallsFeatures tree) :
    (e.valueOf scope tree).FailsWith (Failure e scope tree) := by
  have lift {tree operand : Node} (hoperand : operand ∈ tree.operands)
      (h : (e.valueOf scope operand).FailsWith (Failure e scope operand)) :
      (e.valueOf scope operand).FailsWith (Failure e scope tree) :=
    Ends.mono h fun outcome houtcome err herr => (houtcome err herr).of_operand hoperand
  induction tree with
  | literal w value verbatim =>
      rw [valueOf]
      exact failsWith_pure value
  | identifier w name =>
      rw [valueOf, named]
      cases hfeature : e.feature? name with
      | some feature =>
          apply failsWith_fail
          exact .uncalled (List.mem_singleton_self name) (hfeature ▸ rfl)
      | none => exact failsWith_pure _
  | unary w op operand ih =>
      have hoperand : operand ∈ (Node.unary w op operand).operands := List.mem_singleton_self operand
      rw [valueOf]
      exact (lift hoperand (ih (calls.of_operand hoperand))).map op.apply
  | binary w op left right ihLeft ihRight =>
      have hleft : left ∈ (Node.binary w op left right).operands := List.mem_cons_self
      have hright : right ∈ (Node.binary w op left right).operands :=
        List.mem_cons_of_mem _ List.mem_cons_self
      rw [valueOf]
      exact (e.combinators.failsWith_both (lift hleft (ihLeft (calls.of_operand hleft)))
        (lift hright (ihRight (calls.of_operand hright)))).map _
  | logical w op operands ih =>
      rw [valueOf, weighedValuesOf_eq_map]
      apply failsWith_chain
      rw [List.forall_mem_map]
      intro operand hoperand
      exact lift hoperand (ih operand hoperand (calls.of_operand hoperand))
  | array w elements ih =>
      rw [valueOf, valuesOf_eq_map]
      refine (failsWith_gather ?_).map Value.array
      rw [List.forall_mem_map]
      intro element helement
      exact lift helement (ih element helement (calls.of_operand helement))
  | conditional w test consequent alternate ihTest ihConsequent ihAlternate =>
      have htest : test ∈ (Node.conditional w test consequent alternate).operands := List.mem_cons_self
      have hconsequent : consequent ∈ (Node.conditional w test consequent alternate).operands :=
        List.mem_cons_of_mem _ List.mem_cons_self
      have halternate : alternate ∈ (Node.conditional w test consequent alternate).operands :=
        List.mem_cons_of_mem _ (List.mem_cons_of_mem _ List.mem_cons_self)
      rw [valueOf]
      apply (lift htest (ihTest (calls.of_operand htest))).bind
      intro value _
      split
      · exact lift hconsequent (ihConsequent (calls.of_operand hconsequent))
      · exact lift halternate (ihAlternate (calls.of_operand halternate))
  | sequence w expressions ih =>
      rw [valueOf, valuesOf_eq_map]
      apply failsWith_inOrder
      rw [List.forall_mem_map]
      intro expression hexpression
      exact lift hexpression (ih expression hexpression (calls.of_operand hexpression))
  | call w callee arguments ihCallee ih =>
      obtain ⟨name, feature, hcallee⟩ := calls w callee arguments .root
      obtain ⟨⟨u, rfl⟩, registered⟩ := eq_of_callee? hcallee
      rw [valueOf, hcallee]
      apply FailsWith.bind
      · rw [valuesOf_eq_map]
        apply failsWith_gather
        rw [List.forall_mem_map]
        intro argument hargument
        exact lift hargument (ih argument hargument (calls.of_operand hargument))
      · intro values answered
        apply ends_mapOutcome.mpr
        apply (ends_canEnd _).mono
        intro outcome failed err herr
        cases outcome with
        | ok value => cases herr
        | error cause =>
            cases herr
            exact .call .root registered answered failed
  | member w object path ih =>
      have hobject : object ∈ (Node.member w object path).operands := List.mem_singleton_self object
      rw [valueOf]
      apply (lift hobject (ih (calls.of_operand hobject))).bind
      intro value answered
      rw [memberOf]
      cases absent : value.getPath? path with
      | some found => exact failsWith_pure found
      | none =>
          by_cases strict : e.config.strictMembers
          · rw [if_pos strict]
            exact failsWith_fail (.missing strict .root answered absent)
          · rw [if_neg strict]
            exact failsWith_pure _

end Evaluator

end RuleLang
