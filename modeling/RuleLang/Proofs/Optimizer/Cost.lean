import RuleLang.Proofs.Optimizer.Knowledge
import RuleLang.Proofs.Optimizer.Parts
import RuleLang.Sample

/-!
# The cost of validated trees

Validation writes a weight at every node. Rules compute it from what is known of the validated parts or
from the weights at their roots, before or after chains are merged, and with sums that are cut at the
limit on the way. In the tree that results it is one cost of each kind of node over the weights of
the subtrees that stand there, cut once.

* `Weight.total`, `Weight.toNat_sum`: weights added up without a limit, and where their sum is cut.
* `Optimizer.IsPriced`: the weight of a node is its cost.
* `Optimizer.weight_of_compile`: every node of a validated tree is priced so, and the weight that is
  reported is that of the root.
-/

namespace RuleLang

/-- Weights, added up as natural numbers. -/
def Weight.total (weights : List Weight) : Nat :=
  weights.foldr (fun w n => w.toNat + n) 0

/-- A sum of weights is their total, cut at the limit once. -/
theorem Weight.toNat_sum (weights : List Weight) :
    (sum weights).toNat = min (total weights) weightLimit := by
  have hfold (start : Weight) : (weights.foldl (· + ·) start).toNat =
      min (start.toNat + total weights) weightLimit := by
    induction weights generalizing start with
    | nil => simp [total, Nat.min_eq_left start.le_limit]
    | cons w weights ih =>
        rw [List.foldl_cons, ih, toNat_add, total, total, List.foldr_cons]
        omega
  simpa [sum] using hfold 0

/-- The weights of trees, added up as natural numbers. -/
def Node.totalCost (nodes : List Node) : Nat :=
  Weight.total (nodes.map Node.weight)

/-- No trees cost nothing. -/
@[simp] theorem Node.totalCost_nil : totalCost [] = 0 := rfl

/-- The cost of trees is the sum of their weights. -/
@[simp] theorem Node.totalCost_cons (node : Node) (rest : List Node) :
    totalCost (node :: rest) = node.weight.toNat + totalCost rest := rfl

namespace Optimizer

open Node (Subtree totalCost)

variable {V : Type} {o : Optimizer V}

/-- The weight of a node is its cost over the subtrees that stand below it. A literal costs nothing and
a name one. A conditional costs its test and the dearer of its branches. A call costs what its feature
declares for it, besides its callee and its arguments. Any other node costs its subtrees. -/
def IsPriced (o : Optimizer V) : Node → Prop
  | .literal w _ _ => w.toNat = 0
  | .identifier w _ => w.toNat = 1
  | .conditional w test consequent alternate =>
    w.toNat = min (1 + test.weight.toNat + max consequent.weight.toNat alternate.weight.toNat)
      weightLimit
  | .call w callee arguments =>
    ∃ name feature results description, callee.identifier? = some name ∧
      o.feature? name = some feature ∧ o.allKnowledge? arguments = some results ∧
      feature.describe results = .ok description ∧
      w.toNat = min (callee.weight.toNat + 1 + totalCost arguments + description.weight.toNat)
        weightLimit
  | node => node.weight.toNat = min (1 + totalCost node.children) weightLimit

/-- The weight that is known of a settled tree is the one that it carries. -/
theorem Settled.weight_eq {r : Reduced V} (h : o.Settled r) : r.result.weight = r.node.weight := by
  cases h with
  | constant constant =>
      obtain ⟨value, verbatim, rendered, -, rfl⟩ := constant
      rfl
  | _ => rfl

/-- A sum of known weights is cut where the sum of the costs is. -/
theorem Settled.toNat_sum {xs : List (Reduced V)} (settled : ∀ x ∈ xs, o.Settled x) :
    (Weight.sum (xs.map fun x => x.result.weight)).toNat =
      min (totalCost (xs.map Reduced.node)) weightLimit := by
  rw [Weight.toNat_sum, totalCost, List.map_map]
  congr 2
  exact List.map_congr_left fun x hx => (settled x hx).weight_eq

/-- What a node over trees weighs if it adds up the weights that they carry. -/
theorem toNat_totalWeight_add_one (xs : List (Reduced V)) :
    (totalWeight xs + 1).toNat = min (1 + totalCost (xs.map Reduced.node)) weightLimit := by
  have hweights : xs.map (fun x => x.node.weight) = (xs.map Reduced.node).map Node.weight := by
    rw [List.map_map]
    rfl
  rw [totalWeight, Weight.toNat_add, Weight.toNat_sum, hweights, totalCost, Weight.toNat_one]
  omega

/-- The root of a settled tree is priced. -/
theorem Settled.isPriced {r : Reduced V} (h : o.Settled r) : o.IsPriced r.node := by
  cases h with
  | constant constant =>
      obtain ⟨value, verbatim, rendered, -, rfl⟩ := constant
      rfl
  | feature known => rfl
  | entry free declared unspliced => rfl
  | unary settled unknown =>
      simp only [IsPriced, Node.children, Node.totalCost_cons, settled.weight_eq]
      simp [Node.weight, Nat.add_comm]
  | binary left right unknown =>
      simp only [IsPriced, Node.children, Node.totalCost_cons, left.weight_eq, right.weight_eq]
      simp [Node.weight]
      omega
  | @logical op xs settled two notLiterals unabsorbed flat => exact toNat_totalWeight_add_one xs
  | @array xs settled notLiterals => exact toNat_totalWeight_add_one xs
  | @sequence xs last settled ends unknown => exact toNat_totalWeight_add_one xs
  | conditional test consequent alternate unselected unknown =>
      simp only [IsPriced, Weight.toNat_add, Weight.toNat_max, Weight.toNat_one, Nat.max, test.weight_eq,
        consequent.weight_eq, alternate.weight_eq]
      omega
  | @call name feature xs description known settled compiled described unknown =>
      refine ⟨name, feature, xs.map Reduced.result, description, rfl, known, ?_, described, ?_⟩
      · exact allKnowledge?_map fun x hx => (settled x hx).knowledge?_eq
      · have hsum := Settled.toNat_sum settled
        simp only [Weight.toNat_add, Weight.toNat_one, hsum, Node.weight]
        omega
  | declaredMember settled unknown declared leads unspliced | openMember settled unknown undeclared value =>
      simp only [IsPriced, Node.children, Node.totalCost_cons, settled.weight_eq]
      simp [Node.weight, Nat.add_comm]

/-- Of settled trees only the literals weigh nothing. -/
theorem Settled.weight_eq_zero_iff {r : Reduced V} (h : o.Settled r) :
    r.node.weight.toNat = 0 ↔ r.node.isLiteral := by
  cases h with
  | constant constant =>
      obtain ⟨value, verbatim, rendered, -, rfl⟩ := constant
      simp [Node.ofValue, Node.weight, Node.isLiteral]
  | _ => simp [Node.weight, Node.isLiteral, weightLimit]

/-- Every node of a validated tree weighs its cost, whatever weights the tree came with, and the weight
that compilation reports is that of the root. -/
theorem weight_of_compile {ast : Node} {r : Reduced V} (h : o.compile ast = .ok r) :
    (∀ node, Subtree node r.node → o.IsPriced node) ∧ r.result.weight = r.node.weight := by
  have settled : o.Settled r := settled_of_reduceAt h
  refine ⟨fun node hnode => ?_, settled.weight_eq⟩
  obtain ⟨x, hx, rfl⟩ := settled.exists_of_subtree hnode
  exact hx.isPriced

end Optimizer

/-- A rule as it may come back from an editor, with weights that it has outgrown. -/
def Sample.outgrownRule : Node :=
  .logical (.ofNat 7) .and
    [.call (.ofNat 40) (.identifier 0 "isCredit") [],
      .conditional 0 (.unary (.ofNat weightLimit) .not (.identifier (.ofNat 5) "prohibitedCountries"))
        (memberOf "trx" "amount") (.literal (.ofNat 9) (.bool true) false)]

/-- The rule is priced anew, whatever weights it came with. -/
theorem Sample.weight_of_compile_outgrownRule : ∃ r,
    (engine (ω := Unit) statementText).optimizer.compile outgrownRule = .ok r ∧
      ((∀ node, Node.Subtree node r.node →
          (engine (ω := Unit) statementText).optimizer.IsPriced node) ∧
        r.result.weight = r.node.weight) ∧ r.node.weight.toNat = 9 := by
  have hcompile : ∃ r, (engine (ω := Unit) statementText).optimizer.compile outgrownRule = .ok r ∧
      r.node.weight.toNat = 9 := ⟨_, rfl, rfl⟩
  obtain ⟨r, hr, hweight⟩ := hcompile
  exact ⟨r, hr, Optimizer.weight_of_compile hr, hweight⟩

end RuleLang
