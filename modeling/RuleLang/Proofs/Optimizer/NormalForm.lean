import RuleLang.Proofs.Optimizer.FixedPoint
import RuleLang.Proofs.Optimizer.Knowledge
import RuleLang.Proofs.Optimizer.Parts

/-!
# The normal form of validated trees

A rule that rewrites a node can expose a node that another rule would rewrite: a selected branch stands
in a chain, a merged chain is all literals, a chain of one operand gives way to another chain. One pass
from the leaves up leaves none of them.

* `Optimizer.IsNormal`: a node that no rule rewrites, kind by kind, over the subtrees that stand there.
* `Sql.splice_eq_none_iff`: the shapes that have no text of their own in SQL.
* `Optimizer.isNormal_of_validate`: every node of a validated tree is normal, and SQL leaves no name or
  member in place that stands for a column or a parameter.
-/

namespace RuleLang

/-- Whether a tree is a name or a member access. -/
def Node.isReference : Node → Bool
  | .identifier _ _ => true
  | .member _ _ _ => true
  | _ => false

/-- What has no value as a literal is no literal. -/
theorem Node.not_isLiteral_of_literal? {node : Node} (h : node.literal? = none) : ¬ node.isLiteral := by
  cases node <;> simp_all [literal?, isLiteral]

namespace Optimizer

variable {V : Type} {o : Optimizer V}

/-- No rule rewrites a node over the subtrees that stand below it. -/
def IsNormal (o : Optimizer V) : Node → Prop
  | .literal _ _ _ => True
  | .identifier _ name => (o.feature? name).isSome ∨ (o.schema.get? name).isSome
  | .unary _ _ operand => ¬ operand.isLiteral
  | .binary _ _ left right => ¬ (left.isLiteral ∧ right.isLiteral)
  | .logical _ op operands =>
    2 ≤ operands.length ∧ ¬ (∀ n ∈ operands, n.isLiteral) ∧
      (o.config.absorption → ∀ n ∈ operands, n.constant? = none) ∧
      (o.config.flattening → ∀ n ∈ operands, ¬ n.isChainOf op)
  | .array _ elements => elements ≠ [] ∧ ¬ ∀ n ∈ elements, n.isLiteral
  | .conditional _ test consequent alternate =>
    test.constant? = none ∧ ¬ (test.isLiteral ∧ consequent.isLiteral ∧ alternate.isLiteral)
  | .sequence _ expressions => ∃ last, expressions.getLast? = some last ∧ ¬ last.isLiteral
  | .call _ callee _ => ∃ name, callee.identifier? = some name ∧ (o.feature? name).isSome
  | .member _ object _ => ¬ object.isLiteral

/-- A settled tree of which no constant is known is no literal. -/
theorem Settled.not_isLiteral {x : Reduced V} (h : o.Settled x) (unknown : x.result.literal? = none) :
    ¬ x.node.isLiteral := by
  rw [h.isLiteral_iff, unknown]
  exact Bool.false_ne_true

/-- The root of a settled tree is normal. -/
theorem Settled.isNormal {r : Reduced V} (h : o.Settled r) : o.IsNormal r.node := by
  cases h with
  | constant constant =>
      obtain ⟨value, verbatim, rendered, -, rfl⟩ := constant
      exact trivial
  | feature known => exact .inl (by rw [known]; rfl)
  | entry free declared unspliced => exact .inr (by rw [declared]; rfl)
  | unary settled unknown => exact settled.not_isLiteral unknown
  | binary left right unknown =>
      rintro ⟨hleft, hright⟩
      rcases unknown with unknown | unknown
      · exact left.not_isLiteral unknown hleft
      · exact right.not_isLiteral unknown hright
  | logical settled two notLiterals unabsorbed flat =>
      refine ⟨by simpa using two, by simpa using notLiterals, ?_, ?_⟩
      · intro absorption
        simpa [isAbsorbed, absorption] using unabsorbed
      · intro flattening
        simpa using flat flattening
  | array settled notLiterals =>
      refine ⟨?_, by simpa using notLiterals⟩
      rintro hnil
      simp [List.map_eq_nil_iff.mp hnil] at notLiterals
  | conditional test consequent alternate unselected unknown =>
      refine ⟨unselected, ?_⟩
      rintro ⟨htest, hconsequent, halternate⟩
      rcases unknown with unknown | unknown | unknown
      · exact test.not_isLiteral unknown htest
      · exact consequent.not_isLiteral unknown hconsequent
      · exact alternate.not_isLiteral unknown halternate
  | @sequence xs last settled ends unknown =>
      refine ⟨last.node, by simp [List.getLast?_map, ends], ?_⟩
      exact (settled last (List.mem_of_getLast? ends)).not_isLiteral unknown
  | @call name feature xs description known settled compiled described unknown =>
      exact ⟨name, rfl, by rw [known]; rfl⟩
  | declaredMember settled unknown declared leads unspliced =>
      exact Node.not_isLiteral_of_literal? unknown
  | openMember settled unknown undeclared value => exact Node.not_isLiteral_of_literal? unknown

/-- What a name or a member of a settled tree is declared to be, the domain leaves in place. -/
theorem Settled.splice_eq_none {r : Reduced V} (h : o.Settled r) (reference : r.node.isReference)
    {shape : Shape} (hshape : r.result.shape? = some shape) : o.domain.splice shape = none := by
  cases h with
  | constant constant =>
      obtain ⟨value, verbatim, rendered, -, rfl⟩ := constant
      cases hshape
  | feature known => cases hshape
  | entry free declared unspliced | declaredMember settled unknown declared leads unspliced =>
      cases hshape
      exact unspliced
  | openMember settled unknown undeclared value => cases hshape
  | _ => cases reference

end Optimizer

/-- SQL leaves in place what stands neither for a column nor for a parameter. -/
theorem Sql.splice_eq_none_iff {shape : Shape} :
    Sql.domain.splice shape = none ↔
      (∀ column, shape ≠ .field column) ∧ ∀ marker, shape ≠ .placeholder marker := by
  cases shape <;> simp [Sql.domain, Sql.splice]

open Node (Subtree) in
/-- Every node of a validated tree is normal, in any domain and any configuration. Where the domain is
SQL, no name or member in the tree is known to be a column or a parameter. -/
theorem Optimizer.isNormal_of_validate :
    (∀ {V : Type} (o : Optimizer V) (ast tree : Node), o.validate ast = .ok tree →
      ∀ node, Subtree node tree → o.IsNormal node) ∧
    ∀ (compiler : Sql.Compiler) (ast tree : Node), compiler.domain = Sql.domain →
      compiler.validate ast = .ok tree → ∀ node, Subtree node tree →
        ∃ known, compiler.knowledge? node = some known ∧
          (node.isReference → ∀ shape, known.shape? = some shape →
            (∀ column, shape ≠ .field column) ∧ ∀ marker, shape ≠ .placeholder marker) := by
  constructor
  · intro V o ast tree h node hnode
    obtain ⟨r, hr, rfl⟩ := map_eq_ok_iff.mp h
    obtain ⟨x, hx, rfl⟩ := (settled_of_reduceAt hr).exists_of_subtree hnode
    exact hx.isNormal
  · intro compiler ast tree hdomain h node hnode
    obtain ⟨r, hr, rfl⟩ := map_eq_ok_iff.mp h
    obtain ⟨x, hx, rfl⟩ := (settled_of_reduceAt hr).exists_of_subtree hnode
    refine ⟨x.result, hx.knowledge?_eq, fun reference shape hshape => ?_⟩
    exact Sql.splice_eq_none_iff.mp (hdomain ▸ hx.splice_eq_none reference hshape)

/-- A column before the name that it is taken from. The column is written out as text; the name stays. -/
def Sample.columnThenName : Node :=
  .sequence 0 [memberOf "past" "country", .identifier 0 "past"]

open Node (Subtree) in
/-- A rule over values and one for SQL are in normal form, and the name left in the latter is no column and
no placeholder. -/
theorem Sample.isNormal_of_validate_columnThenName :
    (∃ tree, (engine (ω := Unit) statementText).optimizer.validate repeatedCountry = .ok tree ∧
      ∀ node, Subtree node tree → (engine (ω := Unit) statementText).optimizer.IsNormal node) ∧
    ∃ tree, compiler.validate columnThenName = .ok tree ∧ ∀ node, Subtree node tree →
      compiler.IsNormal node ∧ ∃ known, compiler.knowledge? node = some known ∧
        (node.isReference → ∀ shape, known.shape? = some shape →
          (∀ column, shape ≠ .field column) ∧ ∀ marker, shape ≠ .placeholder marker) := by
  have hvalues : ∃ tree, (engine (ω := Unit) statementText).optimizer.validate repeatedCountry =
      .ok tree := ⟨_, rfl⟩
  have hsql : ∃ tree, compiler.validate columnThenName = .ok tree := ⟨_, rfl⟩
  obtain ⟨rule, hrule⟩ := hvalues
  obtain ⟨tree, htree⟩ := hsql
  obtain ⟨normal, unspliced⟩ := Optimizer.isNormal_of_validate
  refine ⟨⟨rule, hrule, normal _ _ _ hrule⟩, tree, htree, fun node hnode => ⟨?_, ?_⟩⟩
  · exact normal compiler _ _ htree node hnode
  · exact unspliced compiler _ _ rfl htree node hnode

end RuleLang
