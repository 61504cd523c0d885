import RuleLang.Proofs.Evaluation.Failure

/-!
# When strict members make no difference

The setting for missing members is asked only where a member is missing. If all members of a tree are
found, the tree is the same computation with either setting: the same outcome, the same actions and the
same suspensions.

* `Computation.AnswersIn`: every answer of a computation has a property.
* `Evaluator.FindsMembers`: every member in a tree is found.
* `Evaluator.FindsMembers.valueOf_withStrictMembers`: the setting makes no difference then.
-/

namespace RuleLang

namespace Computation

variable {ω ε α β : Type}

/-- Every answer of a computation has a property. -/
def AnswersIn (c : Computation ω ε α) (P : α → Prop) : Prop :=
  c.Ends fun outcome => ∀ a, outcome = .ok a → P a

variable {c : Computation ω ε α} {P Q : α → Prop}

/-- An answer at once is one of those expected if it is expected. -/
theorem answersIn_pure {a : α} (h : P a) : (pure a : Computation ω ε α).AnswersIn P := by
  intro b hb
  cases hb
  exact h

/-- A failure at once is no unexpected answer. -/
theorem answersIn_fail (e : ε) : (fail e : Computation ω ε α).AnswersIn P :=
  fun a ha => (by cases ha)

/-- More answers may be expected. -/
theorem AnswersIn.mono (h : c.AnswersIn P) (himp : ∀ a, P a → Q a) : c.AnswersIn Q :=
  Ends.mono h fun _ houtcome a ha => himp a (houtcome a ha)

/-- A property of all values is one of all answers. -/
theorem answersIn_of_forall (h : ∀ a, P a) : c.AnswersIn P :=
  (ends_canEnd c).mono fun _ _ a _ => h a

/-- One computation after another answers as the second does on an answer of the first. -/
theorem AnswersIn.bind {R : β → Prop} {next : α → Computation ω ε β} (h : c.AnswersIn P)
    (hnext : ∀ a, P a → (next a).AnswersIn R) : (bind c next).AnswersIn R := by
  apply ends_bind h
  · intro a ha
    exact hnext a (ha a rfl)
  · intro e _ b hb
    cases hb

/-- Changing the failure keeps the answers. -/
theorem AnswersIn.mapError (h : c.AnswersIn P) (f : ε → ε) : (mapError f c).AnswersIn P := by
  apply ends_mapOutcome.mpr
  apply Ends.mono h
  intro outcome houtcome a ha
  cases outcome with
  | ok b => exact houtcome a ha
  | error e => cases ha

/-- Computations in order answer as the last of them does. -/
theorem answersIn_inOrder {cs : List (Computation ω ε α)} {final : Computation ω ε α}
    (hfinal : cs.getLast? = some final) (h : final.AnswersIn P) (last : α) :
    (inOrder last cs).AnswersIn P := by
  induction cs generalizing last with
  | nil => cases hfinal
  | cons c cs ih =>
      cases cs with
      | nil =>
          cases hfinal
          exact h.bind fun a ha => answersIn_pure ha
      | cons next rest =>
          rw [List.getLast?_cons_cons] at hfinal
          exact (answersIn_of_forall fun _ => trivial).bind fun a _ => ih hfinal a

/-- What follows a computation matters on its answers only. -/
theorem bind_congr_of_answersIn {f g : α → Computation ω ε β} (h : c.AnswersIn fun a => f a = g a) :
    bind c f = bind c g := by
  induction c with
  | finished outcome =>
      cases outcome with
      | ok a => exact h a rfl
      | error e => rfl
  | act effect next ih => exact congrArg (act effect) (funext fun w => ih w (h w))
  | suspended next ih => exact congrArg suspended (ih h)

end Computation

open RuleLang.Computation
open Node (Subtree)

namespace Evaluator

variable {ω : Type} {e : Evaluator ω} {scope : Scope}

/-- Parts answer with answers of theirs, however many of them are under way. -/
theorem answersIn_gather {cs : List (Computation ω RuleError Value)} {Ps : List (Value → Prop)}
    (h : List.Forall₂ (fun P c => AnswersIn c P) Ps cs) :
    (e.gather cs).AnswersIn fun values => List.Forall₂ (fun P v => P v) Ps values := by
  have hparts : EndAs (Ps.map fun P outcome => ∀ v, outcome = .ok v → P v) cs := by
    rw [EndAs, List.forall₂_map_left_iff]
    exact h
  refine (ends_gather hparts).mono ?_
  intro outcome houtcome values hvalues
  subst hvalues
  have heach := List.forall₂_map_left_iff.mp houtcome
  exact heach.imp fun P v hv => hv v rfl

/-- The same evaluator with a setting for missing members. -/
def withStrictMembers (e : Evaluator ω) (strict : Bool) : Evaluator ω :=
  { e with config := { e.config with strictMembers := strict } }

/-- Every member in a tree is found in whatever value its object answers with. -/
def FindsMembers (e : Evaluator ω) (scope : Scope) (tree : Node) : Prop :=
  ∀ w object path, Subtree (.member w object path) tree →
    (e.valueOf scope object).AnswersIn fun value => (value.getPath? path).isSome

/-- Where a tree finds its members, its parts do. -/
theorem FindsMembers.of_operand {tree operand : Node} (h : e.FindsMembers scope tree)
    (hoperand : operand ∈ tree.operands) : e.FindsMembers scope operand :=
  fun w object path hsite => h w object path (.child (Node.operands_subset tree hoperand) hsite)

/-- Where all members are found, a tree is the same computation with either setting. The induction is on
the tree; the setting is read at a member only. -/
theorem FindsMembers.valueOf_withStrictMembers {tree : Node} (h : e.FindsMembers scope tree)
    (strict : Bool) : (e.withStrictMembers strict).valueOf scope tree = e.valueOf scope tree := by
  have all {nodes : List Node} (hnodes : ∀ node ∈ nodes,
      (e.withStrictMembers strict).valueOf scope node = e.valueOf scope node) :
      (e.withStrictMembers strict).valuesOf scope nodes = e.valuesOf scope nodes := by
    rw [valuesOf_eq_map, valuesOf_eq_map]
    exact List.map_congr_left hnodes
  induction tree with
  | literal w value verbatim => rw [valueOf, valueOf]
  | identifier w name =>
      rw [valueOf, valueOf]
      rfl
  | unary w op operand ih => rw [valueOf, valueOf, ih (h.of_operand (List.mem_singleton_self operand))]
  | binary w op left right ihLeft ihRight =>
      rw [valueOf, valueOf, ihLeft (h.of_operand List.mem_cons_self),
        ihRight (h.of_operand (List.mem_cons_of_mem _ List.mem_cons_self))]
      rfl
  | logical w op operands ih =>
      rw [valueOf, valueOf, weighedValuesOf_eq_map, weighedValuesOf_eq_map]
      refine congrArg (chain op) (List.map_congr_left ?_)
      intro operand hoperand
      rw [ih operand hoperand (h.of_operand hoperand)]
  | array w elements ih =>
      rw [valueOf, valueOf, all fun element helement => ih element helement (h.of_operand helement)]
      rfl
  | conditional w test consequent alternate ihTest ihConsequent ihAlternate =>
      rw [valueOf, valueOf, ihTest (h.of_operand List.mem_cons_self),
        ihConsequent (h.of_operand (List.mem_cons_of_mem _ List.mem_cons_self)),
        ihAlternate
          (h.of_operand (List.mem_cons_of_mem _ (List.mem_cons_of_mem _ List.mem_cons_self)))]
  | sequence w expressions ih =>
      rw [valueOf, valueOf, all fun expression hexpression =>
        ih expression hexpression (h.of_operand hexpression)]
  | call w callee arguments ihCallee ih =>
      rw [valueOf, valueOf, all fun argument hargument => ih argument hargument (h.of_operand hargument)]
      rfl
  | member w object path ih =>
      rw [valueOf, valueOf, ih (h.of_operand (List.mem_singleton_self object))]
      apply bind_congr_of_answersIn
      apply (h w object path .root).mono
      intro value hfound
      obtain ⟨found, hfound⟩ := Option.isSome_iff_exists.mp hfound
      rw [memberOf, memberOf, hfound]

end Evaluator

end RuleLang
