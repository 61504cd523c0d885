import RuleLang.Evaluation.Basic
import RuleLang.Proofs.Evaluation.Watching

/-!
# The log of an evaluation

An evaluation is watched by one that writes down, for every node of the tree, when it has its value, and
for every call also when it calls its feature. The watching evaluation is built as the watched one is,
from the same parts in the same order.

* `Site`, `Node.at?`: places in a tree.
* `Event`: what is written down, and for which place.
* `Evaluator.observed`: the evaluation of a tree with its log.
* `Node.Precedes`, `Node.Skips`: the children that evaluation takes one after the other, and those
  that it leaves out.
-/

namespace RuleLang

/-- A place in a tree: the positions among the children on the way from the place up to the root. -/
abbrev Site := List Nat

/-- What is written down about an evaluation. -/
inductive Event where
  /-- A call has called its feature. -/
  | invoked (site : Site)
  /-- A node has its value. For a call this is when the feature has answered. -/
  | answered (site : Site) (value : Value)

/-- The place that an event is about. -/
def Event.site : Event → Site
  | invoked site => site
  | answered site _ => site

namespace Node

/-- The node at a place. -/
def at? (root : Node) : Site → Option Node
  | [] => some root
  | i :: site => (root.at? site).bind fun node => node.children[i]?

/-- The children that are evaluated, with their positions: all but the callee of a call. -/
def positions : Node → List (Node × Nat)
  | call _ _ arguments => arguments.zipIdx 1
  | node => node.children.zipIdx

/-- Whether the children are evaluated one after the other. -/
def isSequential : Node → Bool
  | logical _ _ _ => true
  | conditional _ _ _ _ => true
  | sequence _ _ => true
  | _ => false

/-- Of two children that are evaluated one after the other, the first comes before the second: the
expressions of a sequence as they are written, the test before the branches, and the operands of a chain
by weight, equally heavy ones as they are written. -/
def Precedes : Node → Nat → Nat → Prop
  | sequence _ _, i, j => i < j
  | conditional _ _ _ _, i, j => i = 0 ∧ 0 < j
  | logical _ _ operands, i, j =>
    ∃ a b, operands[i]? = some a ∧ operands[j]? = some b ∧
      (a.weight.toNat < b.weight.toNat ∨ a.weight.toNat = b.weight.toNat ∧ i < j)
  | _, _, _ => False

/-- A child is left out, given the answers of other children: a branch that the test does not select, or
an operand after one that decides the chain. -/
def Skips (node : Node) (answers : Nat → Value → Prop) (i : Nat) : Prop :=
  match node with
  | conditional _ _ _ _ => ∃ v, answers 0 v ∧ (i = 1 ∧ ¬ v.isTruthy ∨ i = 2 ∧ v.isTruthy)
  | logical _ op _ => ∃ j v, node.Precedes j i ∧ answers j v ∧ op.decides v.isTruthy
  | _ => False

/-- Only parts that are evaluated one after another come before each other. -/
theorem Precedes.isSequential {node : Node} {i j : Nat} (h : node.Precedes i j) :
    node.isSequential := by
  cases node <;> first | rfl | exact absurd h id

/-- Of two children not both come before the other. -/
theorem Precedes.asymm {node : Node} {i j : Nat} (h : node.Precedes i j) : ¬ node.Precedes j i := by
  cases node with
  | sequence w expressions => exact Nat.lt_asymm h
  | conditional w test consequent alternate =>
      rintro ⟨rfl, -⟩
      exact absurd h.2 (Nat.lt_irrefl 0)
  | logical w op operands =>
      rintro ⟨b, a, hb, ha, hba⟩
      obtain ⟨a', b', ha', hb', hab⟩ := h
      obtain rfl : a' = a := Option.some.inj (ha'.symm.trans ha)
      obtain rfl : b' = b := Option.some.inj (hb'.symm.trans hb)
      omega
  | _ => exact absurd h id

/-- The positions of the members of a list are different. -/
theorem nodup_zipIdx {α : Type} (xs : List α) (start : Nat) :
    ((xs.zipIdx start).map Prod.snd).Nodup := by
  rw [List.zipIdx_map_snd]
  exact List.nodup_range' 1 Nat.one_pos

/-- Each part of a node stands at a place of its own. -/
theorem nodup_positions (node : Node) : (node.positions.map Prod.snd).Nodup := by
  cases node with
  | call w callee arguments => exact nodup_zipIdx arguments 1
  | _ => exact nodup_zipIdx _ 0

end Node

/-- A feature over worlds with a log, to which it writes nothing. -/
def Feature.withLog {ω : Type} (feature : Feature ω) : Feature (ω × List Event) :=
  { feature with call := fun scope arguments => (feature.call scope arguments).quietly }

namespace Evaluator

variable {ω : Type}

/-- The same evaluator over worlds with a log, with ways to evaluate parts side by side there. -/
def withLog (e : Evaluator ω) (watching : Combinators (ω × List Event) RuleError Value) :
    Evaluator (ω × List Event) :=
  ⟨e.features.map fun entry => (entry.1, entry.2.withLog), e.config, watching⟩

mutual

/-- The evaluation of the node at a place, with its log. -/
def observed (e : Evaluator ω) (watching : Combinators (ω × List Event) RuleError Value) (scope : Scope)
    (site : Site) (node : Node) : Computation (ω × List Event) RuleError Value :=
  .recording (.answered site) <|
    match node with
    | .literal _ value _ => .pure value
    | .identifier _ name => (e.withLog watching).named scope name
    | .unary _ op operand => .map op.apply (observed e watching scope (0 :: site) operand)
    | .binary _ op left right =>
      .map (fun (a, b) => op.apply a b)
        (watching.both (observed e watching scope (0 :: site) left)
          (observed e watching scope (1 :: site) right))
    | .logical _ op operands =>
      chain op ((operands.map Node.weight).zip (observedFrom e watching scope site 0 operands))
    | .array _ elements =>
      .map .array ((e.withLog watching).gather (observedFrom e watching scope site 0 elements))
    | .conditional _ test consequent alternate =>
      .bind (observed e watching scope (0 :: site) test) fun value =>
        if value.isTruthy then observed e watching scope (1 :: site) consequent
        else observed e watching scope (2 :: site) alternate
    | .sequence _ expressions => .inOrder .undefined (observedFrom e watching scope site 0 expressions)
    | .call _ callee arguments =>
      match (e.withLog watching).callee? callee with
      | some (name, feature) =>
        .bind ((e.withLog watching).gather (observedFrom e watching scope site 1 arguments)) fun values =>
          .emit (.invoked site) (.mapError (.featureFailed name) (feature.call scope values))
      | none => .fail (.notCallable ("`" ++ callee.text ++ "` is not a feature"))
    | .member _ object path =>
      .bind (observed e watching scope (0 :: site) object) ((e.withLog watching).memberOf object path)

/-- The evaluations of the children of a place from a position on, with their logs. -/
def observedFrom (e : Evaluator ω) (watching : Combinators (ω × List Event) RuleError Value)
    (scope : Scope) (site : Site) (start : Nat) :
    List Node → List (Computation (ω × List Event) RuleError Value)
  | [] => []
  | node :: rest =>
    observed e watching scope (start :: site) node :: observedFrom e watching scope site (start + 1) rest

end

/-! ### The same parts -/

variable {e : Evaluator ω} {watching : Combinators (ω × List Event) RuleError Value} {scope : Scope}

/-- The observed computations of several trees are those of each of them at its place. -/
theorem observedFrom_eq_map (site : Site) (start : Nat) (nodes : List Node) :
    e.observedFrom watching scope site start nodes =
      (nodes.zipIdx start).map fun x => e.observed watching scope (x.2 :: site) x.1 := by
  induction nodes generalizing start with
  | nil => rfl
  | cons node rest ih => rw [observedFrom, List.zipIdx_cons, List.map_cons, ih]

/-- A log does not change which features there are. -/
theorem feature?_withLog (name : String) :
    (e.withLog watching).feature? name = (e.feature? name).map Feature.withLog := by
  unfold withLog feature?
  induction e.features with
  | nil => rfl
  | cons entry rest ih =>
      rw [List.map_cons, Members.find?, Members.find?, ih]
      split <;> rfl

/-- A log does not change which feature a callee names. -/
theorem callee?_withLog (callee : Node) :
    (e.withLog watching).callee? callee =
      (e.callee? callee).map fun (name, feature) => (name, feature.withLog) := by
  unfold callee?
  cases callee.identifier? with
  | none => rfl
  | some name =>
      dsimp only
      rw [feature?_withLog]
      cases e.feature? name <;> rfl

end Evaluator

end RuleLang
