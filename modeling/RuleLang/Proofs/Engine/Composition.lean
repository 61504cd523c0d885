import RuleLang.Proofs.Engine.Paths
import RuleLang.Proofs.Engine.Twins
import RuleLang.Proofs.Value.Conformance

/-!
# A member of a member

A path may be followed in one access or in two. The object decides how an access is checked and where it
is resolved: a literal gives way to its member, a declared shape is followed when the rule is validated
and its value when it is evaluated, and any other object is followed when it is evaluated only. In each
of these cases two accesses come to the same as one along the joined path.

* `Optimizer.Leads`: what a member access becomes where constants are values.
* `Optimizer.Leads.join`, `Optimizer.Leads.split`: two accesses make one, and one makes two.
* `Computation.AnswersLike`: computations that change the world alike and answer alike, or both fail.
* `Engine.member_member_iff_append`: an engine accepts both forms or none, and evaluates them alike.
-/

namespace RuleLang

namespace Optimizer

variable {o : Optimizer Value} {x y r s : Reduced Value} {p q : Path} {w w₁ w₂ w₃ : Weight}

/-- What a member of a validated object becomes where constants are values. -/
inductive Leads (x : Reduced Value) (path : Path) : Reduced Value → Prop
  /-- A literal gives way to its member. -/
  | literal {value found : Value} (constant : x.node.literal? = some (value, false))
      (leads : value.getPath? path = some found) :
      Leads x path ⟨.ofValue found false, .ofLiteral (.one found.typeName) found⟩
  /-- An object of a declared shape has the members that the shape has. -/
  | declared {shape found : Shape} (unknown : x.node.literal? = none)
      (declares : x.result.shape? = some shape) (leads : shape.lookup? path = some found) :
      Leads x path ⟨.member (x.result.weight + 1) x.node path,
        ⟨.one found.typeName, x.result.weight + 1, .declared found⟩⟩
  /-- An object that nothing is declared of may have any member. -/
  | undeclared (unknown : x.node.literal? = none) (declares : x.result.shape? = none)
      (value : ∀ name, x.result.origin ≠ .feature name) :
      Leads x path ⟨.member (x.result.weight + 1) x.node path,
        .ofComputed (.one "any") (x.result.weight + 1) none⟩

/-- The rule for members answers with what the path leads to. -/
theorem leads_of_member (domain : o.domain = concreteDomain) (h : o.member w x p = .ok r) :
    Leads x p r := by
  rcases member_eq_ok h with ⟨value, found, constant, leads, hliteral⟩ |
    ⟨shape, found, unknown, declares, leads, ⟨value, splice, -⟩ | ⟨-, rfl⟩⟩ |
    ⟨unknown, declares, value, rfl⟩
  · obtain ⟨rendered, hrendered, rfl⟩ := literal_eq_ok_iff.mp hliteral
    rw [domain] at hrendered
    cases hrendered
    exact .literal constant leads
  · rw [domain] at splice
    cases splice
  · exact .declared unknown declares leads
  · exact .undeclared unknown declares value

/-- Wherever a path leads, the rule for members answers. -/
theorem Leads.member_eq_ok (domain : o.domain = concreteDomain) (w : Weight) (h : Leads x p r) :
    o.member w x p = .ok r := by
  unfold Optimizer.member
  cases h with
  | literal constant leads =>
      simp only [constant, literalMember, leads, Bool.false_eq_true, if_false]
      exact literal_eq_ok_iff.mpr ⟨_, by rw [domain]; rfl, rfl⟩
  | declared unknown declares leads =>
      have splice (shape : Shape) : o.domain.splice shape = none := by rw [domain]; rfl
      simp only [unknown]
      unfold Reduction.shape? at declares
      split at declares
      · rename_i origin
        cases declares
        simp only [origin, declaredMember, leads, splice]
      · rename_i origin
        subst declares
        simp only [origin, declaredMember, leads, splice]
      · cases declares
  | undeclared unknown declares value =>
      simp only [unknown]
      unfold Reduction.shape? at declares
      split
      · rename_i origin
        simp [origin] at declares
      · rename_i origin
        simp [origin] at declares
      · rename_i name origin
        exact absurd origin (value name)
      · rfl

/-- The rule of member accesses answers just as the path leads. -/
theorem member_eq_ok_iff_leads (domain : o.domain = concreteDomain) :
    o.member w x p = .ok r ↔ Leads x p r :=
  ⟨leads_of_member domain, Leads.member_eq_ok domain w⟩

/-- Two trees are the same, or one is a member of a member and the other the member of the same object
along the joined path. -/
def Joined (object : Node) (p q : Path) (twice once : Node) : Prop :=
  twice = once ∨ ∃ w₁ w₂ w₃, twice = .member w₁ (.member w₂ object p) q ∧
    once = .member w₃ object (p ++ q)

/-- Where a second path leads on from a first, the joined path leads. -/
theorem Leads.join (first : Leads x p y) (second : Leads y q r) :
    ∃ s, Leads x (p ++ q) s ∧ Joined x.node p q r.node s.node := by
  cases first with
  | @literal value found constant leads =>
      -- the member of a literal is a literal again
      cases second with
      | @literal _ member constant' leads' =>
          cases constant'
          have leads'' : value.getPath? (p ++ q) = some member := by
            rw [Value.getPath?_append, leads, Option.bind_some, leads']
          exact ⟨_, .literal constant leads'', .inl rfl⟩
      | declared unknown' | undeclared unknown' => cases unknown'
  | @declared shape found unknown declares leads =>
      -- the member of a declared shape has the shape that is declared for it
      cases second with
      | literal constant' => cases constant'
      | @declared _ member unknown' declares' leads' =>
          cases declares'
          have leads'' : shape.lookup? (p ++ q) = some member := by
            rw [Shape.lookup?_append, leads, Option.bind_some, leads']
          exact ⟨_, .declared unknown declares leads'', .inr ⟨_, _, _, rfl, rfl⟩⟩
      | undeclared unknown' declares' => cases declares'
  | undeclared unknown declares value =>
      cases second with
      | literal constant' => cases constant'
      | declared unknown' declares' => cases declares'
      | undeclared => exact ⟨_, .undeclared unknown declares value, .inr ⟨_, _, _, rfl, rfl⟩⟩

/-- Where a joined path leads, its first part leads, and its second part leads on from there. -/
theorem Leads.split (h : Leads x (p ++ q) s) : ∃ y r, Leads x p y ∧ Leads y q r := by
  cases h with
  | literal constant leads =>
      rw [Value.getPath?_append] at leads
      obtain ⟨found, first, second⟩ := Option.bind_eq_some_iff.mp leads
      exact ⟨_, _, .literal constant first, .literal rfl second⟩
  | declared unknown declares leads =>
      rw [Shape.lookup?_append] at leads
      obtain ⟨found, first, second⟩ := Option.bind_eq_some_iff.mp leads
      exact ⟨_, _, .declared unknown declares first, .declared rfl rfl second⟩
  | undeclared unknown declares value =>
      have computed (name : String) : Origin.computed none ≠ (Origin.feature name : Origin Value) :=
        nofun
      exact ⟨_, _, .undeclared unknown declares value, .undeclared rfl rfl computed⟩

/-- A member of a member is validated to what two paths lead to, one from the other. -/
theorem reduceAt_member_member_iff (domain : o.domain = concreteDomain) {level : Nat} {object : Node} :
    o.reduceAt level (.member w₁ (.member w₂ object p) q) = .ok r ↔
      level + 1 ≤ o.config.maxDepth ∧ ∃ x, o.reduceAt (level + 2) object = .ok x ∧
        ∃ y, Leads x p y ∧ Leads y q r := by
  simp only [reduceAt_member_iff, member_eq_ok_iff_leads domain]
  constructor
  · rintro ⟨-, y, ⟨hlevel, x, hx, first⟩, second⟩
    exact ⟨hlevel, x, hx, y, first, second⟩
  · rintro ⟨hlevel, x, hx, y, first, second⟩
    exact ⟨by omega, y, ⟨hlevel, x, hx, first⟩, second⟩

/-- Where a member of a member is validated, the member along the joined path is. -/
theorem exists_once_of_twice (domain : o.domain = concreteDomain) (w₃ : Weight) {level : Nat}
    {object : Node} (h : o.reduceAt level (.member w₁ (.member w₂ object p) q) = .ok r) :
    ∃ x s, o.reduceAt level (.member w₃ object (p ++ q)) = .ok s ∧ Joined x p q r.node s.node := by
  obtain ⟨hlevel, x, hx, y, first, second⟩ := (reduceAt_member_member_iff domain).mp h
  obtain ⟨s, leads, joined⟩ := first.join second
  have hx' : o.reduceAt (level + 1) object = .ok x := reduceAt_of_room (.inl (Nat.le_succ _)) hx
  exact ⟨x.node, s, reduceAt_member_iff.mpr
    ⟨Nat.le_of_succ_le hlevel, x, hx', leads.member_eq_ok domain _⟩, joined⟩

/-- Where the member along a joined path is validated, the member of a member is, if it fits. -/
theorem exists_twice_of_once (domain : o.domain = concreteDomain) {level : Nat} {object : Node}
    (fits : o.Fits level (.member w₁ (.member w₂ object p) q))
    (h : o.reduceAt level (.member w₃ object (p ++ q)) = .ok s) :
    ∃ r, o.reduceAt level (.member w₁ (.member w₂ object p) q) = .ok r := by
  obtain ⟨-, x, hx, hmember⟩ := reduceAt_member_iff.mp h
  obtain ⟨y, r, first, second⟩ := (leads_of_member domain hmember).split
  have inner : o.Fits (level + 1) (.member w₂ object p) := fits.child (by simp [Node.children])
  have hx' : o.reduceAt (level + 2) object = .ok x :=
    reduceAt_of_room (.inr (inner.child (by simp [Node.children]))) hx
  exact ⟨r, (reduceAt_member_member_iff domain).mpr ⟨inner.le, x, hx', y, first, second⟩⟩

end Optimizer

/-! ### Evaluation -/

namespace Computation

variable {ω ε α β γ : Type}

/-- Two computations leave every world alike, and answer alike or both fail. -/
def AnswersLike (c d : Computation ω ε α) : Prop :=
  ∀ w, (c.run w).1.toOption = (d.run w).1.toOption ∧ (c.run w).2 = (d.run w).2

/-- A computation answers like itself. -/
theorem AnswersLike.refl (c : Computation ω ε α) : c.AnswersLike c :=
  fun _ => ⟨rfl, rfl⟩

/-- Of three computations one after another the last two may be taken together. -/
theorem bind_assoc (c : Computation ω ε α) (f : α → Computation ω ε β) (g : β → Computation ω ε γ) :
    bind (bind c f) g = bind c fun a => bind (f a) g := by
  induction c with
  | finished outcome => cases outcome <;> rfl
  | act effect next ih => exact congrArg (act effect) (funext ih)
  | suspended next ih => exact congrArg suspended ih

/-- What follows on a computation may be replaced by what answers alike. -/
theorem AnswersLike.bind (c : Computation ω ε α) {f g : α → Computation ω ε β}
    (h : ∀ a, (f a).AnswersLike (g a)) : (bind c f).AnswersLike (bind c g) := by
  induction c with
  | finished outcome =>
      cases outcome with
      | ok a => exact h a
      | error e => exact .refl _
  | act effect next ih => exact fun w => ih w (effect w)
  | suspended next ih => exact ih

end Computation

namespace Evaluator

open RuleLang.Computation (AnswersLike)

variable {ω : Type} (e : Evaluator ω) {p q : Path}

/-- A path in two parts finds what the joined path finds. Where the first part finds nothing, the second
part is looked for in the absent value, which has no members. -/
theorem answersLike_memberOf (object inner : Node) (value : Value) :
    (Computation.bind (e.memberOf object p value) (e.memberOf inner q)).AnswersLike
      (e.memberOf object (p ++ q) value) := by
  unfold memberOf
  rw [Value.getPath?_append]
  cases value.getPath? p with
  | some found =>
      cases hfound : found.getPath? q with
      | some member => simp [Computation.bind, Computation.pure, hfound, AnswersLike.refl]
      | none =>
          cases e.config.strictMembers
          · simp [Computation.bind, Computation.pure, hfound, AnswersLike.refl]
          · simp [Computation.bind, Computation.pure, hfound, AnswersLike, Computation.fail,
              Computation.run, Except.toOption]
  | none =>
      have absent : Value.undefined.getPath? q = none ∨ Value.undefined.getPath? q = some .undefined := by
        cases q with
        | nil => exact .inr rfl
        | cons segment q => exact .inl rfl
      cases e.config.strictMembers with
      | true =>
          simp [Computation.bind, AnswersLike, Computation.fail, Computation.run, Except.toOption]
      | false =>
          rcases absent with habsent | habsent
          all_goals simp [Computation.bind, Computation.pure, habsent, AnswersLike.refl]

/-- A member of a member answers as the member along the joined path does. -/
theorem answersLike_of_joined (scope : Scope) {object twice once : Node}
    (h : Optimizer.Joined object p q twice once) :
    (e.valueOf scope twice).AnswersLike (e.valueOf scope once) := by
  rcases h with rfl | ⟨w₁, w₂, w₃, rfl, rfl⟩
  · exact .refl _
  · simp only [valueOf, Computation.bind_assoc]
    exact .bind _ fun value => e.answersLike_memberOf object _ value

end Evaluator

namespace Engine

open Optimizer

variable {ω : Type} {engine : Engine ω} {object : Node} {p q : Path} {w₁ w₂ : Weight}

/-- A member of a member and the member along the joined path are validated both or not at all, as long
as the levels suffice for the one that is nested deeper. Their validated trees answer alike or both fail,
in every scope, whether missing members are errors or not, and leave the world alike. -/
theorem member_member_iff_append (reachable : engine.Reachable) (w₃ : Weight)
    (within : (Node.member w₁ (.member w₂ object p) q).depth ≤
      engine.optimizer.config.maxDepth + 1) :
    ((∃ tree, engine.validate (.member w₁ (.member w₂ object p) q) = .ok tree) ↔
        ∃ tree, engine.validate (.member w₃ object (p ++ q)) = .ok tree) ∧
      ∀ twice once, engine.validate (.member w₁ (.member w₂ object p) q) = .ok twice →
        engine.validate (.member w₃ object (p ++ q)) = .ok once →
        ∀ strict scope, ((engine.withStrictMembers strict).valueOf scope twice).AnswersLike
          ((engine.withStrictMembers strict).valueOf scope once) := by
  have domain := reachable.coherent.domain
  refine ⟨⟨?_, ?_⟩, ?_⟩
  · rintro ⟨twice, htwice⟩
    obtain ⟨r, hr, -⟩ := map_eq_ok_iff.mp htwice
    obtain ⟨-, s, hs, -⟩ := exists_once_of_twice domain w₃ hr
    exact ⟨s.node, validate_of_reduceAt hs⟩
  · rintro ⟨once, honce⟩
    obtain ⟨s, hs, -⟩ := map_eq_ok_iff.mp honce
    have fits : engine.optimizer.Fits 0 (.member w₁ (.member w₂ object p) q) := by
      rwa [Fits, Nat.zero_add]
    obtain ⟨r, hr⟩ := exists_twice_of_once domain fits hs
    exact ⟨r.node, validate_of_reduceAt hr⟩
  · intro twice once htwice honce strict scope
    obtain ⟨r, hr, rfl⟩ := map_eq_ok_iff.mp htwice
    obtain ⟨object', s, hs, joined⟩ := exists_once_of_twice domain w₃ hr
    cases honce.symm.trans (validate_of_reduceAt hs)
    exact (engine.withStrictMembers strict).evaluator.answersLike_of_joined scope joined

end Engine

namespace Sample

/-- The country of the owner is the same in two steps as in one. -/
theorem member_member_iff_append_ownerCountry : ∃ twice once,
    accountEngine.validate
        (.member 0 (.member 0 (callOf "account" []) [.key "owner"]) [.key "country"]) = .ok twice ∧
      accountEngine.validate (.member 0 (callOf "account" []) [.key "owner", .key "country"]) =
        .ok once ∧
      ∀ strict scope, ((accountEngine.withStrictMembers strict).valueOf scope twice).AnswersLike
        ((accountEngine.withStrictMembers strict).valueOf scope once) := by
  have reachable : accountEngine.Reachable := (Engine.Reachable.new valueSchema).addFeature _ _
  have within : (Node.member 0 (.member 0 (callOf "account" []) [.key "owner"])
      [.key "country"]).depth ≤ accountEngine.optimizer.config.maxDepth + 1 := by decide
  obtain ⟨-, alike⟩ := Engine.member_member_iff_append reachable 0 within
  exact ⟨_, _, rfl, rfl, alike _ _ rfl rfl⟩

end Sample

end RuleLang
