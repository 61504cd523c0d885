import RuleLang.Proofs.Optimizer.FixedPoint
import RuleLang.Proofs.Optimizer.Knowledge
import RuleLang.Proofs.Optimizer.Reports
import RuleLang.Proofs.TypeEstimate

/-!
# The estimated types of operators

An operator between two operands is estimated to have any type of either, and one in front of an operand
the types of that operand. Estimates are merged node by node, while constants fold and chains give way to
their parts; what comes out is one union over the trees that the operators stand over.

* `Node.terms`: the trees that operators stand over, from left to right.
* `Optimizer.OperatorOutcome`: how a node is validated to an operator.
* `Optimizer.exists_terms_of_reduceAt`: the estimate of a validated tree is the union over its terms.
* `Optimizer.estimate_of_compile`: the names of that union, each where it is first seen.
-/

namespace RuleLang

namespace Node

/-- The largest subtrees of a tree that are neither an operator in front of an operand nor one between two
operands, from left to right. -/
def terms : Node → List Node
  | .unary _ _ operand => operand.terms
  | .binary _ _ left right => left.terms ++ right.terms
  | node => [node]

/-- Whether the root is an operator in front of an operand or between two operands. -/
def isOperator : Node → Bool
  | .unary _ _ _ => true
  | .binary _ _ _ _ => true
  | _ => false

/-- Any other tree is its own term. -/
theorem terms_of_not_isOperator {node : Node} (h : ¬ node.isOperator) : node.terms = [node] := by
  cases node with
  | unary w op operand => exact absurd rfl h
  | binary w op left right => exact absurd rfl h
  | _ => rfl

/-- A tree has at least one term. -/
theorem terms_ne_nil (node : Node) : node.terms ≠ [] := by
  induction node using induction_children with
  | step node ih =>
      cases node with
      | unary w op operand => exact ih operand List.mem_cons_self
      | binary w op left right =>
          exact List.append_ne_nil_of_left_ne_nil (ih left List.mem_cons_self) right.terms
      | _ => exact List.cons_ne_nil _ _

end Node

namespace Optimizer

variable {V : Type} {o : Optimizer V} {level : Nat} {node : Node} {r : Reduced V}

/-- The estimates of settled trees are unions. -/
theorem Settled.isUnion (h : o.Settled r) : r.result.estimate.IsUnion := by
  induction h with
  | constant constant =>
      obtain ⟨value, verbatim, rendered, -, rfl⟩ := constant
      exact TypeEstimate.isUnion_one _
  | unary settled unknown ih => exact ih
  | binary left right unknown ihLeft ihRight => exact TypeEstimate.isUnion_union _
  | conditional test consequent alternate unselected unknown ihTest ihConsequent ihAlternate =>
      exact TypeEstimate.isUnion_union _
  | @sequence xs last settled ends unknown ih => exact ih last (List.mem_of_getLast? ends)
  | _ => exact TypeEstimate.isUnion_one _

/-- How a node is validated to an operator: as that operator over its validated operands, or because a
direct subtree is validated to one and takes the place of the node. -/
inductive OperatorOutcome (o : Optimizer V) (level : Nat) : Node → Reduced V → Prop
  | unary {w : Weight} {op : UnaryOp} {operand : Node} {x : Reduced V}
      (hx : o.reduceAt (level + 1) operand = .ok x) :
      OperatorOutcome o level (.unary w op operand)
        ⟨.unary (x.result.weight + 1) op x.node,
          .ofComputed x.result.estimate (x.result.weight + 1) none⟩
  | binary {w : Weight} {op : BinaryOp} {left right : Node} {x y : Reduced V}
      (hx : o.reduceAt (level + 1) left = .ok x) (hy : o.reduceAt (level + 1) right = .ok y) :
      OperatorOutcome o level (.binary w op left right)
        ⟨.binary (x.result.weight + y.result.weight + 1) op x.node y.node,
          .ofComputed (.union [x.result.estimate, y.result.estimate])
            (x.result.weight + y.result.weight + 1) none⟩
  | passed {node child : Node} {r : Reduced V} (mem : child ∈ o.validatedChildren level node)
      (h : o.reduceAt (level + 1) child = .ok r) : OperatorOutcome o level node r

/-- A constant is no operator. -/
theorem IsConstant.not_isOperator (h : o.IsConstant r) : ¬ r.node.isOperator := by
  obtain ⟨value, verbatim, rendered, -, rfl⟩ := h
  exact Bool.false_ne_true

/-- A node that is validated to an operator is so in one of these ways. -/
theorem operatorOutcome_of_reduceAt (h : o.reduceAt level node = .ok r) (hop : r.node.isOperator) :
    o.OperatorOutcome level node r := by
  have notLiteral {value : Value} {verbatim : Bool} (hr : o.literal value verbatim = .ok r) : False :=
    (isConstant_of_literal hr).not_isOperator hop
  have notFolded {value : V} (hr : o.fold value = .ok r) : False := notLiteral hr
  cases node with
  | literal w value verbatim => exact (notLiteral (reduceAt_literal_iff.mp h).2).elim
  | identifier w name =>
      rcases identifier_eq_ok (reduceAt_identifier_iff.mp h).2 with
        ⟨feature, -, rfl⟩ | ⟨shape, -, -, ⟨value, -, hfold⟩ | ⟨-, rfl⟩⟩
      · exact absurd hop Bool.false_ne_true
      · exact (notFolded hfold).elim
      · exact absurd hop Bool.false_ne_true
  | unary w op operand =>
      obtain ⟨-, x, hx, h⟩ := reduceAt_unary_iff.mp h
      rcases unary_eq_ok h with ⟨value, -, hfold⟩ | ⟨-, rfl⟩
      · exact (notFolded hfold).elim
      · exact .unary hx
  | binary w op left right =>
      obtain ⟨-, x, hx, y, hy, h⟩ := reduceAt_binary_iff.mp h
      rcases binary_eq_ok h with ⟨a, b, value, -, -, -, hfold⟩ | ⟨-, rfl⟩
      · exact (notFolded hfold).elim
      · exact .binary hx hy
  | logical w op operands =>
      obtain ⟨-, xs, hxs, h⟩ := reduceAt_logical_iff.mp h
      have passed (hr : r ∈ xs) : o.OperatorOutcome level (.logical w op operands) r := by
        obtain ⟨operand, hoperand, hreduce⟩ := exists_of_mem_forall₂ hxs hr
        exact .passed hoperand hreduce
      cases logical_eq_ok h with
      | folded constant fold => exact (notFolded fold).elim
      | decided mem decisive => exact passed mem
      | neutral undecided absorbed literal => exact (notLiteral literal).elim
      | single undecided remaining =>
          have hmem : r ∈ o.remaining xs := remaining ▸ List.mem_cons_self
          exact passed (mem_remaining.mp hmem).1
      | rendered undecided two literals fold => exact (notFolded fold).elim
      | merged nodes undecided two notLiterals merge => exact absurd hop Bool.false_ne_true
  | array w elements =>
      obtain ⟨-, xs, -, h⟩ := reduceAt_array_iff.mp h
      rcases array_eq_ok h with ⟨-, hliteral⟩ | ⟨values, -, -, hfold⟩ | ⟨-, rfl⟩
      · exact (notLiteral hliteral).elim
      · exact (notFolded hfold).elim
      · exact absurd hop Bool.false_ne_true
  | conditional w test consequent alternate =>
      obtain ⟨-, x, hx, y, hy, z, hz, h⟩ := reduceAt_conditional_iff.mp h
      rcases conditional_eq_ok h with ⟨value, -, rfl⟩ | ⟨t, c, a, -, -, -, -, hfold⟩ | ⟨-, -, rfl⟩
      · split
        · exact .passed (by simp [validatedChildren, Node.children]) hy
        · exact .passed (by simp [validatedChildren, Node.children]) hz
      · exact (notFolded hfold).elim
      · exact absurd hop Bool.false_ne_true
  | sequence w expressions =>
      obtain ⟨-, xs, hxs, h⟩ := reduceAt_sequence_iff.mp h
      rcases sequence_eq_ok h with ⟨-, hliteral⟩ | ⟨hlast, -⟩ | ⟨last, -, -, rfl⟩
      · exact (notLiteral hliteral).elim
      · obtain ⟨expression, hexpression, hreduce⟩ := exists_of_mem_forall₂ hxs (List.mem_of_getLast? hlast)
        exact .passed hexpression hreduce
      · exact absurd hop Bool.false_ne_true
  | call w callee arguments =>
      obtain ⟨-, x, -, feature, -, xs, -, h⟩ := reduceAt_call_iff.mp h
      obtain ⟨description, -, ⟨value, -, hfold⟩ | ⟨-, rfl⟩⟩ := call_eq_ok h
      · exact (notFolded hfold).elim
      · exact absurd hop Bool.false_ne_true
  | member w object path =>
      obtain ⟨-, x, -, h⟩ := reduceAt_member_iff.mp h
      rcases member_eq_ok h with ⟨value, found, -, -, hliteral⟩ |
        ⟨shape, found, -, -, -, ⟨value, -, hfold⟩ | ⟨-, rfl⟩⟩ | ⟨-, -, -, rfl⟩
      · exact (notLiteral hliteral).elim
      · exact (notFolded hfold).elim
      · exact absurd hop Bool.false_ne_true
      · exact absurd hop Bool.false_ne_true

/-- A tree is validated to another one where it stands in a tree. -/
def ValidatedWithin (o : Optimizer V) (level : Nat) (node : Node) (x : Reduced V) : Prop :=
  ∃ depth part, o.Stands depth part level node ∧ o.reduceAt depth part = .ok x

/-- What stands below a part of a tree stands below the tree. -/
theorem ValidatedWithin.child {child : Node} {x : Reduced V} (mem : child ∈ o.validatedChildren level node)
    (h : o.ValidatedWithin (level + 1) child x) : o.ValidatedWithin level node x := by
  obtain ⟨depth, part, hstands, hpart⟩ := h
  exact ⟨depth, part, .child mem hstands, hpart⟩

/-- The trees over which an operator stands have names of types. -/
theorem names_ne_nil_of_terms {xs : List (Reduced V)} (hterms : xs.map Reduced.node = r.node.terms)
    (hwithin : ∀ x ∈ xs, o.ValidatedWithin level node x) :
    (xs.map fun x => x.result.estimate).flatMap TypeEstimate.names ≠ [] := by
  obtain ⟨x, hx⟩ : ∃ x, x ∈ xs := by
    refine List.exists_mem_of_ne_nil xs fun hnil => r.node.terms_ne_nil ?_
    rw [← hterms, hnil, List.map_nil]
  obtain ⟨depth, part, -, hpart⟩ := hwithin x hx
  intro hnone
  rw [List.flatMap_map, List.flatMap_eq_nil_iff] at hnone
  exact (settled_of_reduceAt hpart).isUnion.names_ne_nil (hnone x hx)

/-- Every term of a validated tree is what a subtree is validated to, and the estimate of the tree is the
union of what is estimated there. -/
theorem exists_terms_of_reduceAt (h : o.reduceAt level node = .ok r) :
    ∃ xs : List (Reduced V), xs.map Reduced.node = r.node.terms ∧
      (∀ x ∈ xs, o.ValidatedWithin level node x) ∧
      r.result.estimate = .union (xs.map fun x => x.result.estimate) := by
  induction node using Node.induction_children generalizing level r with
  | step node ih =>
      by_cases hop : r.node.isOperator
      · cases operatorOutcome_of_reduceAt h hop with
        | @unary w op operand x hx =>
            obtain ⟨xs, hterms, hwithin, hestimate⟩ := ih operand List.mem_cons_self hx
            exact ⟨xs, hterms, fun z hz => (hwithin z hz).child List.mem_cons_self, hestimate⟩
        | @binary w op left right x y hx hy =>
            have hmem : right ∈ Node.children (.binary w op left right) :=
              List.mem_cons_of_mem left List.mem_cons_self
            obtain ⟨xs, hxs, hleft, hestimate⟩ := ih left List.mem_cons_self hx
            obtain ⟨ys, hys, hright, hestimate'⟩ := ih right hmem hy
            refine ⟨xs ++ ys, ?_, ?_, ?_⟩
            · rw [List.map_append, hxs, hys]
              rfl
            · exact List.forall_mem_append.mpr ⟨fun z hz => (hleft z hz).child List.mem_cons_self,
                fun z hz => (hright z hz).child hmem⟩
            · -- The operands were merged first, each over its own terms.
              have hnamed : ∀ group ∈ [xs.map fun x => x.result.estimate, ys.map fun x => x.result.estimate],
                  group.flatMap TypeEstimate.names ≠ [] :=
                List.forall_mem_cons.mpr ⟨names_ne_nil_of_terms hxs hleft,
                  List.forall_mem_singleton.mpr (names_ne_nil_of_terms hys hright)⟩
              have hgroups := TypeEstimate.union_map_union hnamed
              simpa [hestimate, hestimate', Reduction.ofComputed] using hgroups
        | @passed node child r mem hr =>
            obtain ⟨xs, hterms, hwithin, hestimate⟩ := ih child (validatedChildren_subset mem) hr
            exact ⟨xs, hterms, fun z hz => (hwithin z hz).child mem, hestimate⟩
      · refine ⟨[r], ?_, ?_, ?_⟩
        · rw [Node.terms_of_not_isOperator hop, List.map_singleton]
        · intro x hx
          rw [List.mem_singleton.mp hx]
          exact ⟨level, node, .root, h⟩
        · exact (settled_of_reduceAt h).isUnion.symm

/-- **Estimates of operators are unions over their terms.** Each term of a validated tree is what a subtree
of the given one is validated to, what is known of it can be read off it, and where the compilers of
arguments are faithful it compiles to itself. The names of the estimate are those of the terms from left to
right, each where it is first seen, and a single name stands alone. A union does not depend on how estimates
that have names are grouped, and it is a single name where one is left, or undefined where there is none. -/
theorem estimate_of_compile (o : Optimizer V) :
    (∀ ast r, o.compile ast = .ok r → ∃ xs : List (Reduced V), xs.map Reduced.node = r.node.terms ∧
        (∀ x ∈ xs, o.ValidatedWithin 0 ast x ∧ o.knowledge? x.node = some x.result ∧
          (o.CompilersFaithful → o.compile x.node = .ok x)) ∧
        r.result.estimate.names = (xs.flatMap fun x => x.result.estimate.names).eraseDups ∧
        r.result.estimate.names.Nodup ∧
        ∀ name, r.result.estimate = .one name ↔
          (xs.flatMap fun x => x.result.estimate.names).eraseDups = [name]) ∧
      (∀ groups : List (List TypeEstimate), (∀ group ∈ groups, group.flatMap TypeEstimate.names ≠ []) →
        TypeEstimate.union (groups.map TypeEstimate.union) = .union groups.flatten) ∧
      ∀ (estimates : List TypeEstimate) (name : String), TypeEstimate.union estimates = .one name ↔
        (estimates.flatMap TypeEstimate.names).eraseDups = [name] ∨
          estimates.flatMap TypeEstimate.names = [] ∧ name = "undefined" := by
  refine ⟨fun ast r h => ?_, fun groups => TypeEstimate.union_map_union,
    fun estimates name => TypeEstimate.union_eq_one_iff⟩
  obtain ⟨xs, hterms, hwithin, hestimate⟩ := exists_terms_of_reduceAt h
  have hnamed := names_ne_nil_of_terms hterms hwithin
  have hnames := TypeEstimate.names_union hnamed
  rw [← hestimate, List.flatMap_map] at hnames
  refine ⟨xs, hterms, fun x hx => ?_, hnames, ?_, fun name => ?_⟩
  · obtain ⟨depth, part, hstands, hpart⟩ := hwithin x hx
    have settled : o.Settled x := settled_of_reduceAt hpart
    refine ⟨⟨depth, part, hstands, hpart⟩, settled.knowledge?_eq, fun faithful => ?_⟩
    refine settled.reduceAt faithful ?_
    have hfits := fits_of_reduceAt hpart
    unfold Fits at hfits ⊢
    omega
  · rw [hnames]
    exact nodup_eraseDups _
  · rw [hestimate, TypeEstimate.union_eq_one_iff, List.flatMap_map]
    rw [List.flatMap_map] at hnamed
    exact or_iff_left fun h => hnamed h.1

end Optimizer

namespace Sample

/-- A sum whose last operand stands in a chain that gives way to it. -/
def mixedSum : Node :=
  .binary 0 .add (.unary 0 .minus (memberOf "trx" "amount"))
    (.logical 0 .and [.ofValue (.bool true) false,
      .binary 0 .add (memberOf "trx" "country") (.binary 0 .add (callOf "isCredit" []) (numeral 1))])

/-- The sample features compile faithfully. -/
theorem faithful_optimizer : (engine (ω := Unit) statementText).optimizer.CompilersFaithful := by
  have coherent : (engine (ω := Unit) statementText).Coherent :=
    ((Engine.Reachable.new valueSchema).withTransactionFeatures compiler statementText).coherent
  exact coherent.compilersFaithful
    ((Engine.everyFeature_new valueSchema _).withTransactionFeatures rfl statementText)

/-- The estimate of a sum of mixed operands names the type of each operand once, in their order. -/
theorem estimate_of_compile_mixedSum : ∃ (r : Reduced Value) (xs : List (Reduced Value)),
    (engine (ω := Unit) statementText).optimizer.compile mixedSum = .ok r ∧
      xs.map Reduced.node = r.node.terms ∧
      (∀ x ∈ xs, (engine (ω := Unit) statementText).optimizer.compile x.node = .ok x) ∧
      (xs.flatMap fun x => x.result.estimate.names).eraseDups = ["number", "string", "boolean"] ∧
      TypeEstimate.union [.union [.one "number", .one "string"], .union [.one "string", .one "boolean"]] =
        .union [.one "number", .one "string", .one "string", .one "boolean"] := by
  have hcompile : ∃ r, (engine (ω := Unit) statementText).optimizer.compile mixedSum = .ok r ∧
      r.result.estimate.names = ["number", "string", "boolean"] := ⟨_, rfl, rfl⟩
  obtain ⟨r, hr, hnames⟩ := hcompile
  obtain ⟨hterms, hgroups, -⟩ :=
    Optimizer.estimate_of_compile (engine (ω := Unit) statementText).optimizer
  obtain ⟨xs, hxs, hcompiles, hunion, -⟩ := hterms mixedSum r hr
  refine ⟨r, xs, hr, hxs, fun x hx => (hcompiles x hx).2.2 faithful_optimizer, hunion.symm.trans hnames, ?_⟩
  exact hgroups [[.one "number", .one "string"], [.one "string", .one "boolean"]] (by decide)

end Sample

end RuleLang
