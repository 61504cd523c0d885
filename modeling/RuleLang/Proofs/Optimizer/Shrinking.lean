import RuleLang.Proofs.Node.Measures
import RuleLang.Proofs.Optimizer.Cost

/-!
# Validation never makes a tree larger

Whatever validation does to a node, the result has no more nodes than the tree that was given, is no
deeper, and costs no more than that tree would if nothing in it were simplified. The bound on the weight
follows from that on the cost, since a validated tree weighs what it costs, cut at the limit.

* `Optimizer.DeclaresFixed`: calls of a feature are all described with one weight.
* `Optimizer.shrinks_of_reduceAt`: a tree shrinks to what it is validated to.
* `Optimizer.toNat_weight_of_isPriced`: a tree in which every node is priced weighs its plain cost.
* `Optimizer.measures_of_validate`: the number of nodes, the depth and the weight of validated trees.
-/

namespace RuleLang

namespace Optimizer

open Node (Shrinks ShrinkAll Subtree plainCost totalPlainCost totalCost shrinks_ofValue)

variable {V : Type} {o : Optimizer V} {declared : String → Weight} {r : Reduced V}

/-- The calls of each feature are described with the weight that is declared for it, whatever the
arguments are. -/
def DeclaresFixed (o : Optimizer V) (declared : String → Weight) : Prop :=
  ∀ name feature, o.feature? name = some feature → ∀ results description,
    feature.describe results = .ok description → description.weight = declared name

/-! ### Every rule shrinks -/

/-- A constant is no larger than any node. -/
theorem IsConstant.shrinks (h : o.IsConstant r) (node : Node) : Shrinks declared r.node node := by
  obtain ⟨value, verbatim, rendered, -, rfl⟩ := h
  exact shrinks_ofValue value verbatim node

/-- What a tree contributes to an enclosing chain is no larger than the tree. -/
theorem shrinkAll_flatten (op : LogicalOp) (node : Node) :
    ShrinkAll declared (o.flatten op node) [node] := by
  unfold flatten
  split
  · split
    · exact Node.shrinkAll_logical
    · exact .refl _
  · exact .refl _

/-- What validated parts are together no larger than the trees that they stand for. -/
theorem shrinkAll_nodes {nodes : List Node} {xs : List (Reduced V)}
    (h : List.Forall₂ (fun n x => Shrinks declared (Reduced.node x) n) nodes xs) :
    ShrinkAll declared (xs.map Reduced.node) nodes := by
  apply Node.shrinkAll_of_forall₂
  rwa [List.forall₂_map_right_iff]

/-- A chain shrinks to what it becomes over operands that are no larger. -/
theorem ChainOutcome.shrinks {w : Weight} {op : LogicalOp} {nodes : List Node}
    {operands : List (Reduced V)} (h : ChainOutcome o op operands r)
    (parts : List.Forall₂ (fun n x => Shrinks declared (Reduced.node x) n) nodes operands) :
    Shrinks declared r.node (.logical w op nodes) := by
  have part {x : Reduced V} (hx : x ∈ operands) : Shrinks declared x.node (.logical w op nodes) := by
    obtain ⟨node, hnode, hshrinks⟩ := exists_of_mem_forall₂ parts hx
    exact hshrinks.trans (Node.shrinks_of_mem_children hnode)
  cases h with
  | folded constant fold => exact (isConstant_of_fold fold).shrinks _
  | decided mem decisive => exact part mem
  | neutral undecided absorbed literal => exact (isConstant_of_literal literal).shrinks _
  | single undecided remaining =>
      have hmem : r ∈ o.remaining operands := by simp [remaining]
      exact part (mem_remaining.mp hmem).1
  | rendered undecided two literals fold => exact (isConstant_of_fold fold).shrinks _
  | merged merged undecided two notLiterals merge =>
      -- the operands that remain, each in place of what it contributes
      have hkept : ShrinkAll declared ((o.remaining operands).map Reduced.node) nodes :=
        (Node.shrinkAll_of_sublist (List.filter_sublist.map Reduced.node)).trans (shrinkAll_nodes parts)
      have hmerged : ShrinkAll declared merged ((o.remaining operands).map Reduced.node) := by
        rw [merge, ← List.flatMap_map]
        exact Node.shrinkAll_flatMap fun node _ => shrinkAll_flatten op node
      exact (hmerged.trans hkept).logical

/-- A name that is validated to a feature is the name of the feature. -/
theorem exists_identifier_of_feature {level : Nat} {callee : Node} {x : Reduced V} {name : String}
    (named : callee.identifier?.isSome) (h : o.reduceAt level callee = .ok x)
    (origin : x.result.origin = .feature name) : ∃ u, callee = .identifier u name := by
  cases callee with
  | identifier u name' =>
      rcases identifier_eq_ok (reduceAt_identifier_iff.mp h).2 with
        ⟨feature, -, rfl⟩ | ⟨shape, -, -, ⟨value, -, hfold⟩ | ⟨-, rfl⟩⟩
      · cases origin
        exact ⟨u, rfl⟩
      · obtain ⟨value, verbatim, rendered, -, rfl⟩ := isConstant_of_fold hfold
        cases origin
      · cases origin
  | _ => cases named

/-- A tree shrinks to what it is validated to. -/
theorem shrinks_of_reduceAt {level : Nat} {node : Node} (named : node.calleesNamed)
    (h : o.reduceAt level node = .ok r) : Shrinks declared r.node node := by
  induction node generalizing level r with
  | literal w value verbatim =>
      exact (isConstant_of_literal (reduceAt_literal_iff.mp h).2).shrinks _
  | identifier w name =>
      rcases identifier_eq_ok (reduceAt_identifier_iff.mp h).2 with
        ⟨feature, -, rfl⟩ | ⟨shape, -, -, ⟨value, -, hfold⟩ | ⟨-, rfl⟩⟩
      · exact ⟨Nat.le_refl _, Nat.le_refl _, Nat.le_refl _⟩
      · exact (isConstant_of_fold hfold).shrinks _
      · exact ⟨Nat.le_refl _, Nat.le_refl _, Nat.le_refl _⟩
  | unary w op operand ih =>
      obtain ⟨-, x, hx, h⟩ := reduceAt_unary_iff.mp h
      have hoperand := ih named hx
      rcases unary_eq_ok h with ⟨value, -, hfold⟩ | ⟨-, rfl⟩
      · exact (isConstant_of_fold hfold).shrinks _
      · exact hoperand.unary
  | binary w op left right ihLeft ihRight =>
      obtain ⟨-, x, hx, y, hy, h⟩ := reduceAt_binary_iff.mp h
      simp only [Node.calleesNamed, Bool.and_eq_true] at named
      have hleft := ihLeft named.1 hx
      have hright := ihRight named.2 hy
      rcases binary_eq_ok h with ⟨a, b, value, -, -, -, hfold⟩ | ⟨-, rfl⟩
      · exact (isConstant_of_fold hfold).shrinks _
      · exact hleft.binary hright
  | logical w op operands ih =>
      obtain ⟨-, xs, hxs, h⟩ := reduceAt_logical_iff.mp h
      have parts := forall₂_imp_of_mem hxs fun n hn x =>
        ih n hn (Node.allCalleesNamed_iff.mp named n hn)
      exact (logical_eq_ok h).shrinks parts
  | array w elements ih =>
      obtain ⟨-, xs, hxs, h⟩ := reduceAt_array_iff.mp h
      have parts := forall₂_imp_of_mem hxs fun n hn x =>
        ih n hn (Node.allCalleesNamed_iff.mp named n hn)
      rcases array_eq_ok h with ⟨-, hliteral⟩ | ⟨values, -, -, hfold⟩ | ⟨-, rfl⟩
      · exact (isConstant_of_literal hliteral).shrinks _
      · exact (isConstant_of_fold hfold).shrinks _
      · exact (shrinkAll_nodes parts).array
  | conditional w test consequent alternate ihTest ihConsequent ihAlternate =>
      obtain ⟨-, x, hx, y, hy, z, hz, h⟩ := reduceAt_conditional_iff.mp h
      simp only [Node.calleesNamed, Bool.and_eq_true] at named
      have htest := ihTest named.1.1 hx
      have hconsequent := ihConsequent named.1.2 hy
      have halternate := ihAlternate named.2 hz
      rcases conditional_eq_ok h with ⟨value, -, rfl⟩ | ⟨t, c, a, -, -, -, -, hfold⟩ | ⟨-, -, rfl⟩
      · split
        · exact hconsequent.trans (Node.shrinks_of_mem_children (by simp [Node.children]))
        · exact halternate.trans (Node.shrinks_of_mem_children (by simp [Node.children]))
      · exact (isConstant_of_fold hfold).shrinks _
      · exact htest.conditional hconsequent halternate
  | sequence w expressions ih =>
      obtain ⟨-, xs, hxs, h⟩ := reduceAt_sequence_iff.mp h
      have parts := forall₂_imp_of_mem hxs fun n hn x =>
        ih n hn (Node.allCalleesNamed_iff.mp named n hn)
      rcases sequence_eq_ok h with ⟨-, hliteral⟩ | ⟨hlast, -⟩ | ⟨last, -, -, rfl⟩
      · exact (isConstant_of_literal hliteral).shrinks _
      · obtain ⟨expression, hmem, hshrinks⟩ := exists_of_mem_forall₂ parts (List.mem_of_getLast? hlast)
        exact hshrinks.trans (Node.shrinks_of_mem_children hmem)
      · exact (shrinkAll_nodes parts).sequence
  | call w callee arguments ihCallee ih =>
      obtain ⟨-, x, hx, feature, hfeature, xs, hxs, h⟩ := reduceAt_call_iff.mp h
      simp only [Node.calleesNamed, Bool.and_eq_true] at named
      have parts : List.Forall₂ (fun n x => Shrinks declared (Reduced.node x) n) arguments xs := by
        refine forall₂_imp_of_mem hxs fun argument hargument y hreduce => ?_
        unfold ArgumentReduces at hreduce
        split at hreduce
        · obtain ⟨text, -, -, hliteral⟩ := compiledArgument_eq_ok_iff.mp hreduce
          exact (isConstant_of_literal hliteral).shrinks _
        · exact ih argument hargument (Node.allCalleesNamed_iff.mp named.2 argument hargument) hreduce
      obtain ⟨description, -, ⟨value, -, hfold⟩ | ⟨-, rfl⟩⟩ := call_eq_ok h
      · exact (isConstant_of_fold hfold).shrinks _
      · -- the callee is a name, and stays the name of the feature
        obtain ⟨name, horigin, -⟩ := callee?_eq_some hfeature
        have hcallee : x = ⟨.identifier 1 name, ⟨.one "function", 1, .feature name⟩⟩ :=
          (settled_of_reduceAt hx).eq_of_origin horigin
        obtain ⟨u, rfl⟩ := exists_identifier_of_feature named.1 hx horigin
        subst hcallee
        exact (shrinkAll_nodes parts).call
  | member w object path ih =>
      obtain ⟨-, x, hx, h⟩ := reduceAt_member_iff.mp h
      have hobject := ih named hx
      rcases member_eq_ok h with ⟨value, found, -, -, hliteral⟩ |
        ⟨shape, found, -, -, -, ⟨value, -, hfold⟩ | ⟨-, rfl⟩⟩ | ⟨-, -, -, rfl⟩
      · exact (isConstant_of_literal hliteral).shrinks _
      · exact (isConstant_of_fold hfold).shrinks _
      · exact hobject.member
      · exact hobject.member

/-! ### Weights -/

/-- Weights that are plain costs, each cut at the limit, add up to the plain cost, cut at the limit. -/
theorem min_totalCost {nodes : List Node}
    (h : ∀ node ∈ nodes, node.weight.toNat = min (node.plainCost declared) weightLimit) (n : Nat) :
    min (n + totalCost nodes) weightLimit = min (n + totalPlainCost declared nodes) weightLimit := by
  induction nodes generalizing n with
  | nil => rfl
  | cons node rest ih =>
      rw [List.forall_mem_cons] at h
      have hrest := ih h.2 (n + node.weight.toNat)
      rw [Node.totalCost_cons, ← Nat.add_assoc, hrest, h.1, Node.totalPlainCost]
      omega

/-- A tree in which every node is priced weighs its plain cost, cut at the limit. -/
theorem toNat_weight_of_isPriced (fixed : o.DeclaresFixed declared) {node : Node}
    (priced : ∀ part, Subtree part node → o.IsPriced part) :
    node.weight.toNat = min (node.plainCost declared) weightLimit := by
  induction node using Node.induction_children with
  | step node ih =>
      have hroot := priced node .root
      have hparts : ∀ child ∈ node.children,
          child.weight.toNat = min (child.plainCost declared) weightLimit := fun child mem =>
        ih child mem fun part hpart => priced part (.child mem hpart)
      cases node with
      | literal w value verbatim =>
          rw [Node.plainCost, Nat.zero_min]
          exact hroot
      | identifier w name =>
          rw [Node.plainCost]
          exact hroot
      | conditional w test consequent alternate =>
          simp only [Node.children, List.forall_mem_cons] at hparts
          simp only [IsPriced] at hroot
          simp only [Node.weight, Node.plainCost]
          omega
      | call w callee arguments =>
          obtain ⟨name, feature, results, description, hname, known, -, described, hw⟩ := hroot
          obtain ⟨hcallee, harguments⟩ := List.forall_mem_cons.mp hparts
          have hsum := min_totalCost harguments (callee.weight.toNat + 1 + description.weight.toNat)
          rw [fixed name feature known results description described] at hw hsum
          simp only [Node.weight, Node.plainCost, hname, Option.map_some, Option.getD_some]
          omega
      | unary w op operand | binary w op left right | member w object path =>
          have hsum := min_totalCost hparts 1
          simp only [IsPriced] at hroot
          simp only [Node.children, Node.totalPlainCost] at hsum hroot
          simp only [Node.plainCost]
          omega
      | logical w op nodes | array w nodes | sequence w nodes =>
          have hsum := min_totalCost hparts 1
          simp only [IsPriced] at hroot
          rw [hroot]
          exact hsum

/-- A validated tree has no more nodes than the given one and is no deeper, and it weighs no more than
the given one would if nothing in it were simplified. -/
theorem measures_of_validate (fixed : o.DeclaresFixed declared) {ast tree : Node}
    (named : ast.calleesNamed) (h : o.validate ast = .ok tree) :
    tree.size ≤ ast.size ∧ tree.depth ≤ ast.depth ∧
      tree.weight.toNat ≤ min (ast.plainCost declared) weightLimit := by
  obtain ⟨r, hr, rfl⟩ := map_eq_ok_iff.mp h
  have shrinks : Shrinks declared r.node ast := shrinks_of_reduceAt named hr
  obtain ⟨hsize, hdepth, hcost⟩ := shrinks
  have settled : o.Settled r := settled_of_reduceAt hr
  have priced : ∀ part, Subtree part r.node → o.IsPriced part := by
    intro part hpart
    obtain ⟨x, hx, rfl⟩ := settled.exists_of_subtree hpart
    exact hx.isPriced
  refine ⟨hsize, hdepth, ?_⟩
  rw [toNat_weight_of_isPriced fixed priced]
  omega

end Optimizer

/-! ### The features of transactions -/

/-- An aggregate describes all of its calls with the weight of a query. -/
theorem Aggregate.weight_of_describe {ω : Type} {aggregate : Aggregate} {compiler : Sql.Compiler}
    {runner : QueryRunner ω} {results : List (Reduction Value)} {description : Description Value}
    (h : (aggregate.feature compiler runner).staticSide.describe results = .ok description) :
    description.weight = queryWeight := by
  obtain ⟨declared, hdeclared, rfl⟩ := map_eq_ok_iff.mp h
  obtain ⟨_, -, hdescription⟩ := bind_eq_ok_iff.mp hdeclared
  cases hdescription
  rfl

/-- A classifier describes all of its calls with the weight one. -/
theorem Classifier.weight_of_describe {V : Type} {classifier : Classifier} {value? : Option V}
    {results : List (Reduction V)} {description : Description V}
    (h : classifier.describe value? results = .ok description) : description.weight = 1 := by
  unfold describe at h
  split at h
  · cases h
    rfl
  · cases h

namespace Sample

/-- What the calls of the sample features weigh. -/
def declaredWeight (name : String) : Weight :=
  if name = "count" ∨ name = "sum" then Aggregate.queryWeight else 1

/-- The calls of the sample features weigh what the features declare. -/
theorem declaresFixed_engine :
    (engine (ω := Unit) statementText).optimizer.DeclaresFixed declaredWeight := by
  have classifier {c : Classifier} {results : List (Reduction Value)} {description : Description Value}
      (h : (c.feature (ω := Unit)).staticSide.describe results = .ok description) :
      description.weight = 1 := by
    obtain ⟨declared, hdeclared, rfl⟩ := map_eq_ok_iff.mp h
    change declared.weight = 1
    exact Classifier.weight_of_describe hdeclared
  intro name feature known results description described
  have hmem := Members.mem_of_find? known
  rcases List.mem_cons.mp hmem with h | hmem
  · cases h
    exact Aggregate.weight_of_describe described
  rcases List.mem_cons.mp hmem with h | hmem
  · cases h
    exact classifier described
  rcases List.mem_cons.mp hmem with h | hmem
  · cases h
    exact classifier described
  · cases List.mem_singleton.mp hmem
    exact Aggregate.weight_of_describe described

/-- A rule with a chain inside a chain, a branch that is never taken and arguments that are compiled. -/
def roundaboutRule : Node :=
  .logical 0 .and
    [.logical 0 .and
      [callOf "isCredit" [], .binary 0 .greater (memberOf "trx" "amount") (numeral 100)],
      .conditional 0 (.ofValue (.bool true) false)
        (.binary 0 .less
          (callOf "count" [.binary 0 .eq (memberOf "past" "country") (memberOf "trx" "country")])
          (numeral 3))
        (.identifier 0 "prohibitedCountries")]

/-- The rule becomes smaller, and cheaper than it would be with nothing simplified. -/
theorem measures_of_validate_roundaboutRule : ∃ tree,
    (engine (ω := Unit) statementText).optimizer.validate roundaboutRule = .ok tree ∧
      tree.size ≤ roundaboutRule.size ∧ tree.depth ≤ roundaboutRule.depth ∧
      tree.weight.toNat ≤ min (roundaboutRule.plainCost declaredWeight) weightLimit ∧
      tree.weight.toNat = 110 ∧ roundaboutRule.plainCost declaredWeight = 117 := by
  have named : roundaboutRule.calleesNamed := rfl
  have hvalid : ∃ tree, (engine (ω := Unit) statementText).optimizer.validate roundaboutRule =
      .ok tree ∧ tree.weight.toNat = 110 := ⟨_, rfl, rfl⟩
  obtain ⟨tree, validated, htree⟩ := hvalid
  obtain ⟨hsize, hdepth, hweight⟩ :=
    Optimizer.measures_of_validate declaresFixed_engine named validated
  exact ⟨tree, validated, hsize, hdepth, hweight, htree, rfl⟩

end Sample

end RuleLang
