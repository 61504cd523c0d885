import RuleLang.Proofs.Node.Unmarked
import RuleLang.Proofs.Optimizer.FixedPoint
import RuleLang.Proofs.Optimizer.Levels
import RuleLang.Proofs.Schema.Texts
import RuleLang.Proofs.Sql.Comment
import RuleLang.Proofs.Sql.Compiled
import RuleLang.Sample

/-!
# Subtractions that open comments

A subtraction writes its minus sign right in front of its right operand. Where that begins with a minus
sign of its own the two open a line comment, and nothing else that is compiled ever opens a comment, if no
column or parameter brings one along.

* `Sql.Compiler.IsMarkFree`: compilers whose columns and parameters are free of such characters.
* `Sql.writtenParts`: the parts of a rule whose texts are in the text of the rule.
* `Sql.DoublesMinus`: a written subtraction has such an operand.
* `Sql.lineOf_reduceAt`: compiled text opens a line comment exactly then.
* `Sql.comments_of_compileToSql`: the same of rules that were read.
-/

namespace RuleLang

namespace Sql

/-- A compiler whose columns and parameters have no characters of strings and comments. Its features declare
no others, and volunteer texts that open no comments. -/
structure Compiler.IsMarkFree (compiler : Compiler) : Prop where
  domain : compiler.domain = Sql.domain
  schema : ∀ text ∈ compiler.schema.texts, MarkFree text
  features : ∀ entry ∈ compiler.features, ∀ arguments description,
    entry.2.describe arguments = .ok description →
      (∀ f, description.value? = some f → Quiet f.toSql) ∧
        ∀ text ∈ description.returns.texts, MarkFree text

/-! ### Written parts -/

/-- What a tree is validated to. -/
def validated? (c : Compiler) (node : Node) : Option (Reduced Fragment) :=
  (c.compile node).toOption

/-- The parts of a rule whose texts are in the text of the rule: an operand that decides a chain and a
branch that a constant test does not select make the others superfluous, and so does the last part of a
sequence. -/
def writtenParts (c : Compiler) : Node → List Node
  | .unary _ _ operand => [operand]
  | .binary _ _ left right => [left, right]
  | .logical _ op operands =>
    if operands.any fun operand => (validated? c operand).any (c.isDecisive op) then [] else operands
  | .array _ elements => elements
  | .conditional _ test consequent alternate =>
    match (validated? c test).bind fun x => x.node.constant? with
    | some value => [if value.isTruthy then consequent else alternate]
    | none => [test, consequent, alternate]
  | .sequence _ expressions => expressions.getLast?.toList
  | _ => []

/-- A text begins with a minus sign. -/
def IsNegated (f : Fragment) : Prop :=
  f.toSql.toList.head? = some '-'

/-- A subtraction is written whose right operand begins with a minus sign. -/
inductive DoublesMinus (c : Compiler) : Node → Prop
  | here {w : Weight} {left right : Node} {x : Reduced Fragment} {f : Fragment}
      (validated : validated? c right = some x) (constant : x.result.literal? = some f)
      (negated : IsNegated f) : DoublesMinus c (.binary w .subtract left right)
  | part {node part : Node} (written : part ∈ writtenParts c node) (doubles : DoublesMinus c part) :
      DoublesMinus c node

variable {c : Compiler} {node : Node} {r x y z : Reduced Fragment} {xs : List (Reduced Fragment)}
  {nodes : List Node} {w : Weight} {f g : Fragment}

/-- A rule that is no operator between two operands doubles a minus sign where a part of it does. -/
theorem doublesMinus_iff (c : Compiler) (node : Node)
    (h : ∀ w op left right, node ≠ .binary w op left right) :
    DoublesMinus c node ↔ ∃ part ∈ writtenParts c node, DoublesMinus c part := by
  constructor
  · intro hdoubles
    cases hdoubles with
    | here => exact absurd rfl (h _ _ _ _)
    | part written doubles => exact ⟨_, written, doubles⟩
  · rintro ⟨part, written, doubles⟩
    exact .part written doubles

/-- An operator doubles a minus sign if one of its operands does, or if it subtracts what begins with one.
-/
theorem doublesMinus_binary_iff {op : BinaryOp} {left right : Node}
    (validated : validated? c right = some y) (constant : y.result.literal? = some g) :
    DoublesMinus c (.binary w op left right) ↔
      DoublesMinus c left ∨ DoublesMinus c right ∨ op = .subtract ∧ IsNegated g := by
  constructor
  · intro hdoubles
    cases hdoubles with
    | here validated' constant' negated =>
        cases validated.symm.trans validated'
        cases constant.symm.trans constant'
        exact .inr (.inr ⟨rfl, negated⟩)
    | part written doubles =>
        rcases List.mem_cons.mp written with rfl | written
        · exact .inl doubles
        · exact .inr (.inl (List.mem_singleton.mp written ▸ doubles))
  · rintro (hleft | hright | ⟨rfl, negated⟩)
    · exact .part List.mem_cons_self hleft
    · exact .part (List.mem_cons_of_mem _ List.mem_cons_self) hright
    · exact .here validated constant negated

/-- A rule without written parts doubles no minus sign. -/
theorem not_doublesMinus (h : ∀ w op left right, node ≠ .binary w op left right)
    (hparts : writtenParts c node = []) : ¬ DoublesMinus c node := by
  rw [doublesMinus_iff c node h, hparts]
  simp

/-! ### Single trees -/

/-- The constant that a tree is validated to opens a line comment exactly when a written subtraction doubles
a minus sign. -/
def LineOf (c : Compiler) (node : Node) (r : Reduced Fragment) : Prop :=
  ∀ f, r.result.literal? = some f → LineIff f.toSql (DoublesMinus c node)

/-- This is known of a validated tree. -/
structure Tracked (c : Compiler) (node : Node) (r : Reduced Fragment) : Prop where
  validated : validated? c node = some r
  settled : c.Settled r
  line : LineOf c node r

/-- What is known of a folded fragment is the fragment. -/
theorem eq_of_fold (hdomain : c.domain = domain) (h : c.fold f = .ok r)
    (hg : r.result.literal? = some g) : g = f := by
  rw [fold_eq hdomain] at h
  cases h
  exact (Option.some.inj hg).symm

/-- What is folded opens a line comment as it did before. -/
theorem lineOf_fold (hdomain : c.domain = domain) (h : c.fold f = .ok r)
    (hf : LineIff f.toSql (DoublesMinus c node)) : LineOf c node r := fun _ hg =>
  eq_of_fold hdomain h hg ▸ hf

/-- Constants are quiet, so that a rule without written parts may become one. -/
theorem lineOf_literal (hdomain : c.domain = domain) {value : Value}
    (h : c.literal value false = .ok r) (hnode : ¬ DoublesMinus c node) : LineOf c node r := by
  obtain ⟨f, hrendered, rfl⟩ := Optimizer.literal_eq_ok_iff.mp h
  rw [hdomain] at hrendered
  intro g hg
  cases hg
  exact (quiet_renderLiteral hrendered).of_iff (iff_false_intro hnode).symm

/-- A constant is quiet. -/
theorem exists_quiet (hdomain : c.domain = domain) (hx : c.Settled x) (h : x.node.constant?.isSome) :
    ∃ f, x.result.literal? = some f ∧ Quiet f.toSql := by
  cases hx with
  | constant constant =>
      obtain ⟨value, verbatim, f, hrendered, rfl⟩ := constant
      rw [hdomain] at hrendered
      cases verbatim with
      | true => cases h
      | false => exact ⟨f, rfl, quiet_renderLiteral hrendered⟩
  | _ => cases h

/-- A constant whose value is known doubles no minus sign. -/
theorem Tracked.not_doublesMinus (hdomain : c.domain = domain) (h : Tracked c node x)
    (constant : x.node.constant?.isSome) : ¬ DoublesMinus c node := by
  obtain ⟨f, hf, hquiet⟩ := exists_quiet hdomain h.settled constant
  rw [← (h.line f hf).opensLine_iff]
  exact hquiet.opensLine_iff.mp

/-! ### Trees side by side -/

open Optimizer (constants remaining IsConstant)

/-- The constants of tracked trees can stand next to others. -/
theorem operand_constants (h : List.Forall₂ (Tracked c) nodes xs) :
    ∀ f ∈ constants xs, Operand f.toSql.toList := by
  intro f hf
  obtain ⟨x, hx, hliteral⟩ := List.mem_filterMap.mp hf
  obtain ⟨node, -, htracked⟩ := exists_of_mem_forall₂ h hx
  exact (htracked.line f hliteral).operand

/-- Where all trees are transparent constants, none doubles a minus sign. -/
theorem forall_not_doublesMinus (hdomain : c.domain = domain) (h : List.Forall₂ (Tracked c) nodes xs)
    (constant : ∀ x ∈ xs, x.node.constant?.isSome) : ∀ node ∈ nodes, ¬ DoublesMinus c node := by
  intro node hnode
  obtain ⟨x, hx, htracked⟩ := exists_of_mem_forall₂ h.flip hnode
  exact htracked.not_doublesMinus hdomain (constant x hx)

/-- Where all trees are transparent constants, none of the constants opens a line comment. -/
theorem not_opensLine_constants (hdomain : c.domain = domain) (h : List.Forall₂ (Tracked c) nodes xs)
    (constant : ∀ x ∈ xs, x.node.constant?.isSome) : ¬ ∃ f ∈ constants xs, OpensLine f.toSql := by
  rintro ⟨f, hf, hline⟩
  obtain ⟨x, hx, hliteral⟩ := List.mem_filterMap.mp hf
  obtain ⟨node, -, htracked⟩ := exists_of_mem_forall₂ h hx
  obtain ⟨g, hg, hquiet⟩ := exists_quiet hdomain htracked.settled (constant x hx)
  cases hliteral.symm.trans hg
  exact hquiet.opensLine_iff.mp hline

/-! ### Operators -/

/-- An operator in front of an operand opens a line comment exactly if the operand doubles a minus sign. -/
theorem lineOf_unary (hdomain : c.domain = domain) {op : UnaryOp} (hx : Tracked c node x)
    (h : c.unary op x = .ok r) : LineOf c (.unary w op node) r := by
  have hparts : DoublesMinus c (.unary w op node) ↔ DoublesMinus c node :=
    (doublesMinus_iff c _ (by simp)).trans (by simp [writtenParts])
  rcases Optimizer.unary_eq_ok h with ⟨f, hf, hfold⟩ | ⟨-, rfl⟩
  · rw [hdomain] at hfold
    exact lineOf_fold hdomain hfold ((lineIff_unary op (hx.line f hf)).of_iff hparts.symm)
  · rintro g ⟨⟩

/-- An operator opens a line comment exactly if it doubles a minus sign or an operand does. -/
theorem lineOf_binary (hdomain : c.domain = domain) {op : BinaryOp} {left right : Node}
    (hx : Tracked c left x) (hy : Tracked c right y) (h : c.binary op x y = .ok r) :
    LineOf c (.binary w op left right) r := by
  rcases Optimizer.binary_eq_ok h with ⟨f, g, result, hf, hg, hresult, hfold⟩ | ⟨-, rfl⟩
  · rw [hdomain] at hresult
    have hline := lineIff_binary hresult (hx.line f hf) (hy.line g hg)
    exact lineOf_fold hdomain hfold (hline.of_iff (doublesMinus_binary_iff hy.validated hg).symm)
  · rintro g ⟨⟩

/-- A conditional opens a line comment exactly if a part that is written doubles a minus sign. -/
theorem lineOf_conditional (hdomain : c.domain = domain) {test consequent alternate : Node}
    (hx : Tracked c test x) (hy : Tracked c consequent y) (hz : Tracked c alternate z)
    (h : c.conditional x y z = .ok r) : LineOf c (.conditional w test consequent alternate) r := by
  have hparts := doublesMinus_iff c (.conditional w test consequent alternate) (by simp)
  rcases Optimizer.conditional_eq_ok h with ⟨value, hvalue, rfl⟩ |
    ⟨t, f, g, hvalue, ht, hf, hg, hfold⟩ | ⟨-, -, rfl⟩
  · have hwritten : writtenParts c (.conditional w test consequent alternate) =
        [if value.isTruthy then consequent else alternate] := by
      rw [writtenParts, hx.validated, Option.bind_some, hvalue]
    rw [hwritten] at hparts
    intro f hf
    by_cases htruthy : value.isTruthy
    · rw [if_pos htruthy] at hparts hf
      exact (hy.line f hf).of_iff (by rw [hparts]; simp)
    · rw [if_neg htruthy] at hparts hf
      exact (hz.line f hf).of_iff (by rw [hparts]; simp)
  · have hwritten : writtenParts c (.conditional w test consequent alternate) =
        [test, consequent, alternate] := by
      rw [writtenParts, hx.validated, Option.bind_some, hvalue]
    rw [hwritten] at hparts
    rw [hdomain] at hfold
    have hline := lineIff_conditional (hx.line t ht) (hy.line f hf) (hz.line g hg)
    exact lineOf_fold hdomain hfold (hline.of_iff (by rw [hparts]; simp))
  · rintro g ⟨⟩

/-- A sequence opens a line comment exactly if its last expression doubles a minus sign. -/
theorem lineOf_sequence (hdomain : c.domain = domain) (hxs : List.Forall₂ (Tracked c) nodes xs)
    (h : c.sequence xs = .ok r) : LineOf c (.sequence w nodes) r := by
  have hparts := doublesMinus_iff c (.sequence w nodes) (by simp)
  rcases Optimizer.sequence_eq_ok h with ⟨rfl, hliteral⟩ | ⟨hlast, -⟩ | ⟨last, -, -, rfl⟩
  · cases hxs
    exact lineOf_literal hdomain hliteral (not_doublesMinus (by simp) rfl)
  · obtain ⟨node, hnode, htracked⟩ : ∃ node, nodes.getLast? = some node ∧ Tracked c node r :=
      exists_of_getLast?_forall₂ hxs.flip hlast
    intro f hf
    exact (htracked.line f hf).of_iff (by rw [hparts]; simp [writtenParts, hnode])
  · rintro g ⟨⟩

/-! ### Arrays -/

/-- An element is written as the constant that it is validated to, or it is quiet both ways. -/
theorem Tracked.lineIff_element (hdomain : c.domain = domain) (h : Tracked c node x)
    (helement : c.element x.node = .ok g) : LineIff g.toSql (DoublesMinus c node) := by
  have hconstant := h.not_doublesMinus hdomain
  obtain ⟨-, settled, line⟩ := h
  cases settled with
  | constant constant =>
      obtain ⟨value, verbatim, f, hrendered, rfl⟩ := constant
      change c.domain.renderElement value verbatim = .ok g at helement
      rw [hdomain] at helement hrendered
      cases verbatim with
      | false => exact (quiet_renderElement helement).of_iff (iff_false_intro (hconstant rfl)).symm
      | true =>
          have hsame : renderElement value true = renderLiteral value true := by cases value <;> rfl
          cases (hsame.symm.trans helement).symm.trans hrendered
          exact line g rfl
  | _ => cases helement

/-- The items of a list open a line comment exactly if an element doubles a minus sign. -/
theorem lineIff_elements (hdomain : c.domain = domain) (h : List.Forall₂ (Tracked c) nodes xs)
    {fs : List Fragment} (hfs : List.Forall₂ (fun x f => c.element x.node = .ok f) xs fs) :
    (∀ f ∈ fs, Operand f.toSql.toList) ∧
      ((∃ f ∈ fs, OpensLine f.toSql) ↔ ∃ node ∈ nodes, DoublesMinus c node) := by
  induction h generalizing fs with
  | nil =>
      cases hfs
      simp
  | cons head tail ih =>
      cases hfs with
      | cons helement hrest =>
          have hline := head.lineIff_element hdomain helement
          obtain ⟨hoperands, hiff⟩ := ih hrest
          refine ⟨List.forall_mem_cons.mpr ⟨hline.operand, hoperands⟩, ?_⟩
          simp only [List.mem_cons, exists_eq_or_imp, hline.opensLine_iff, hiff]

/-- An array opens a line comment exactly if an element doubles a minus sign. -/
theorem lineOf_array (hdomain : c.domain = domain) (hxs : List.Forall₂ (Tracked c) nodes xs)
    (h : c.array w xs = .ok r) : LineOf c (.array w nodes) r := by
  have hparts := doublesMinus_iff c (.array w nodes) (by simp)
  rcases Optimizer.array_eq_ok h with ⟨hconstant, hliteral⟩ | ⟨fs, -, hfs, hfold⟩ | ⟨-, rfl⟩
  · refine lineOf_literal hdomain hliteral ?_
    rw [hparts]
    rintro ⟨node, hnode, doubles⟩
    exact forall_not_doublesMinus hdomain hxs hconstant node hnode doubles
  · have hvalues := List.forall₂_map_left_iff.mp (mapM_eq_ok_iff.mp hfs)
    obtain ⟨hoperands, hiff⟩ := lineIff_elements hdomain hxs hvalues
    rw [hdomain] at hfold
    exact lineOf_fold hdomain hfold ((lineIff_array hoperands).of_iff (hiff.trans hparts.symm))
  · rintro g ⟨⟩

/-! ### Chains -/

/-- The operands that absorption drops double no minus sign, so that those that remain decide. -/
theorem exists_doublesMinus_iff (hdomain : c.domain = domain) (h : List.Forall₂ (Tracked c) nodes xs)
    (literals : ∀ x ∈ c.remaining xs, x.node.isLiteral) :
    (∃ node ∈ nodes, DoublesMinus c node) ↔ ∃ f ∈ constants (c.remaining xs), OpensLine f.toSql := by
  induction h with
  | nil => simp [constants, remaining]
  | @cons node x nodes xs head tail ih =>
      by_cases habsorbed : c.isAbsorbed x
      · have hconstant : x.node.constant?.isSome := (Bool.and_eq_true_iff.mp habsorbed).2
        have hrest : c.remaining (x :: xs) = c.remaining xs := by simp [remaining, habsorbed]
        rw [hrest] at literals ⊢
        simp only [List.mem_cons, exists_eq_or_imp, head.not_doublesMinus hdomain hconstant, false_or,
          ih literals]
      · have hrest : c.remaining (x :: xs) = x :: c.remaining xs := by simp [remaining, habsorbed]
        rw [hrest, List.forall_mem_cons] at literals
        obtain ⟨f, hf⟩ := Option.isSome_iff_exists.mp (head.settled.isLiteral_iff.mp literals.1)
        have hconstants : constants (x :: c.remaining xs) = f :: constants (c.remaining xs) :=
          List.filterMap_cons_some hf
        rw [hrest, hconstants]
        simp only [List.mem_cons, exists_eq_or_imp, (head.line f hf).opensLine_iff, ih literals.2]

/-- What is written of a chain are operands of it. -/
theorem writtenParts_logical_subset {op : LogicalOp} : writtenParts c (.logical w op nodes) ⊆ nodes := by
  rw [writtenParts]
  split
  · exact List.nil_subset _
  · exact List.Subset.refl _

/-- Where an operand decides the chain, no operand is written. -/
theorem writtenParts_of_isDecisive {op : LogicalOp} (h : List.Forall₂ (Tracked c) nodes xs) (hx : x ∈ xs)
    (decisive : c.isDecisive op x) : writtenParts c (.logical w op nodes) = [] := by
  obtain ⟨node, hnode, htracked⟩ := exists_of_mem_forall₂ h hx
  rw [writtenParts, if_pos]
  refine List.any_eq_true.mpr ⟨node, hnode, ?_⟩
  rw [htracked.validated, Option.any_some]
  exact decisive

/-- All operands of a chain that none of them decides are written. -/
theorem writtenParts_of_undecided {op : LogicalOp} (h : List.Forall₂ (Tracked c) nodes xs)
    (undecided : ∀ x ∈ xs, ¬ c.isDecisive op x) : writtenParts c (.logical w op nodes) = nodes := by
  rw [writtenParts, if_neg]
  simp only [List.any_eq_true, not_exists, not_and]
  intro node hnode
  obtain ⟨x, hx, htracked⟩ := exists_of_mem_forall₂ h.flip hnode
  rw [htracked.validated, Option.any_some]
  exact undecided x hx

/-- A chain opens a line comment exactly if an operand that is written doubles a minus sign. -/
theorem lineOf_logical (hdomain : c.domain = domain) {op : LogicalOp}
    (hxs : List.Forall₂ (Tracked c) nodes xs) (h : c.logical op xs = .ok r) :
    LineOf c (.logical w op nodes) r := by
  have hparts := doublesMinus_iff c (.logical w op nodes) (by simp)
  have hoperands : ∀ f ∈ constants (c.remaining xs), Operand f.toSql.toList := fun f hf =>
    operand_constants hxs f ((List.filter_sublist.filterMap _).subset hf)
  have remain (undecided : ∀ x ∈ xs, ¬ c.isDecisive op x)
      (literals : ∀ x ∈ c.remaining xs, x.node.isLiteral) :
      DoublesMinus c (.logical w op nodes) ↔ ∃ f ∈ constants (c.remaining xs), OpensLine f.toSql := by
    rw [hparts, ← exists_doublesMinus_iff hdomain hxs literals, writtenParts_of_undecided hxs undecided]
  cases Optimizer.logical_eq_ok h with
  | folded constant fold =>
      rw [hdomain] at fold
      have hnode : ¬ DoublesMinus c (.logical w op nodes) := by
        rw [hparts]
        rintro ⟨part, written, doubles⟩
        have hpart := writtenParts_logical_subset written
        exact forall_not_doublesMinus hdomain hxs constant part hpart doubles
      have hline := lineIff_logical op (operand_constants hxs)
      exact lineOf_fold hdomain fold
        (hline.of_iff (iff_of_false (not_opensLine_constants hdomain hxs constant) hnode))
  | decided mem decisive =>
      intro f hf
      obtain ⟨node, -, htracked⟩ := exists_of_mem_forall₂ hxs mem
      have hconstant : r.node.constant?.isSome :=
        (Bool.and_eq_true_iff.mp (Optimizer.isAbsorbed_of_isDecisive decisive)).2
      obtain ⟨g, hg, hquiet⟩ := exists_quiet hdomain htracked.settled hconstant
      cases hf.symm.trans hg
      have hnode := not_doublesMinus (by simp) (writtenParts_of_isDecisive (w := w) hxs mem decisive)
      exact hquiet.of_iff (iff_false_intro hnode).symm
  | neutral undecided absorbed literal =>
      refine lineOf_literal hdomain literal ?_
      rw [remain undecided (by simp [absorbed]), absorbed]
      simp [constants]
  | single undecided hremaining =>
      intro f hf
      have hmem : r ∈ c.remaining xs := hremaining ▸ List.mem_singleton_self r
      obtain ⟨node, -, htracked⟩ := exists_of_mem_forall₂ hxs (Optimizer.mem_remaining.mp hmem).1
      have hliteral : r.node.isLiteral :=
        htracked.settled.isLiteral_iff.mpr (Option.isSome_iff_exists.mpr ⟨f, hf⟩)
      have hconstants : constants (c.remaining xs) = [f] := by
        rw [hremaining]
        exact List.filterMap_cons_some hf
      have hnode := remain undecided (by simpa [hremaining] using hliteral)
      refine ⟨(htracked.line f hf).operand, ?_⟩
      rw [hnode, hconstants]
      simp
  | rendered undecided two literals fold =>
      rw [hdomain] at fold
      exact lineOf_fold hdomain fold
        ((lineIff_logical op hoperands).of_iff (remain undecided literals).symm)
  | merged nodes undecided two notLiterals merge => rintro g ⟨⟩

/-! ### Columns, members and calls -/

/-- All columns and parameters of a shape that is known of a tree are free of marks. -/
theorem markFree_of_settled (hc : c.IsMarkFree) (h : c.Settled r) {shape : Shape}
    (hshape : r.result.shape? = some shape) : ∀ text ∈ shape.texts, MarkFree text := by
  induction h generalizing shape with
  | constant constant =>
      obtain ⟨value, verbatim, f, -, rfl⟩ := constant
      cases hshape
  | entry free declared unspliced =>
      cases hshape
      exact fun text htext => hc.schema text (Schema.texts_subset_of_get? declared htext)
  | sequence settled ends unknown ih => exact ih _ (List.mem_of_getLast? ends) hshape
  | @call name feature xs description known settled compiled described unknown =>
      cases hshape
      exact (hc.features (name, feature) (Members.mem_of_find? known) _ _ described).2
  | declaredMember settled unknown declared leads unspliced ih =>
      cases hshape
      exact fun text htext => ih declared text (Shape.texts_subset_of_lookup? leads htext)
  | _ => cases hshape

/-- What is spliced is quiet if it is free of marks. -/
theorem lineOf_splice (hdomain : c.domain = domain) {shape : Shape}
    (hshape : ∀ text ∈ shape.texts, MarkFree text) (hsplice : c.domain.splice shape = some f)
    (h : c.fold f = .ok r) (hnode : ¬ DoublesMinus c node) : LineOf c node r := by
  have hquiet : Quiet f.toSql := by
    rw [hdomain] at hsplice
    cases shape with
    | field text | placeholder text =>
        cases hsplice
        exact quiet_of_markFree (hshape text List.mem_cons_self)
    | scalar name | object members => cases hsplice
  exact lineOf_fold hdomain h (hquiet.of_iff (iff_false_intro hnode).symm)

/-- A name opens no line comment. -/
theorem lineOf_identifier (hc : c.IsMarkFree) {name : String} (h : c.identifier name = .ok r) :
    LineOf c (.identifier w name) r := by
  rcases Optimizer.identifier_eq_ok h with
    ⟨feature, -, rfl⟩ | ⟨shape, -, declared, ⟨f, hsplice, hfold⟩ | ⟨-, rfl⟩⟩
  · rintro g ⟨⟩
  · have hshape : ∀ text ∈ shape.texts, MarkFree text := fun text htext =>
      hc.schema text (Schema.texts_subset_of_get? declared htext)
    exact lineOf_splice hc.domain hshape hsplice hfold (not_doublesMinus (by simp) rfl)
  · rintro g ⟨⟩

/-- A call opens no line comment. -/
theorem lineOf_call (hc : c.IsMarkFree) {feature : StaticFeature Fragment} {arguments : List Node}
    (known : c.callee? x = some feature) (h : c.call w feature x xs = .ok r) :
    LineOf c (.call w node arguments) r := by
  obtain ⟨name, -, hfeature⟩ := Optimizer.callee?_eq_some known
  obtain ⟨description, hdescription, ⟨f, hf, hfold⟩ | ⟨-, rfl⟩⟩ := Optimizer.call_eq_ok h
  · have hquiet : Quiet f.toSql :=
      (hc.features (name, feature) (Members.mem_of_find? hfeature) _ _ hdescription).1 f hf
    have hnode : ¬ DoublesMinus c (.call w node arguments) := not_doublesMinus (by simp) rfl
    exact lineOf_fold hc.domain hfold (hquiet.of_iff (iff_false_intro hnode).symm)
  · rintro g ⟨⟩

/-- A member access opens no line comment. -/
theorem lineOf_member (hc : c.IsMarkFree) {path : Path} (hx : c.Settled x)
    (h : c.member w x path = .ok r) : LineOf c (.member w node path) r := by
  have hnode : ¬ DoublesMinus c (.member w node path) := not_doublesMinus (by simp) rfl
  rcases Optimizer.member_eq_ok h with ⟨value, found, -, -, hliteral⟩ |
    ⟨shape, found, -, hshape, leads, ⟨f, hsplice, hfold⟩ | ⟨-, rfl⟩⟩ | ⟨-, -, -, rfl⟩
  · exact lineOf_literal hc.domain hliteral hnode
  · have hfound : ∀ text ∈ found.texts, MarkFree text := fun text htext =>
      markFree_of_settled hc hx hshape text (Shape.texts_subset_of_lookup? leads htext)
    exact lineOf_splice hc.domain hfound hsplice hfold hnode
  · rintro g ⟨⟩
  · rintro g ⟨⟩

/-! ### Whole trees -/

/-- What a tree is validated to anywhere is what it is validated to. -/
theorem validated?_of_reduceAt {level : Nat} (h : c.reduceAt level node = .ok r) :
    validated? c node = some r := by
  have hcompile : c.compile node = .ok r := Optimizer.reduceAt_of_room (.inl (Nat.zero_le level)) h
  rw [validated?, hcompile]
  rfl

/-- What a rule is validated to opens a line comment exactly when a written subtraction doubles a minus
sign. The induction is from the subtrees to the rule. -/
theorem lineOf_reduceAt (hc : c.IsMarkFree) {level : Nat} (unmarked : node.Unmarked)
    (h : c.reduceAt level node = .ok r) : LineOf c node r := by
  induction node using Node.induction_children generalizing level r with
  | step node ih =>
      have tracked (child : Node) (mem : child ∈ node.children) (x : Reduced Fragment)
          (hx : c.reduceAt (level + 1) child = .ok x) : Tracked c child x :=
        ⟨validated?_of_reduceAt hx, Optimizer.settled_of_reduceAt hx,
          ih child mem (fun part hpart => unmarked part (.child mem hpart)) hx⟩
      cases node with
      | literal w value verbatim =>
          obtain rfl : verbatim = false := (unmarked _ .root).2 value verbatim rfl
          obtain ⟨-, h⟩ := Optimizer.reduceAt_literal_iff.mp h
          exact lineOf_literal hc.domain h (not_doublesMinus (by simp) rfl)
      | identifier w name => exact lineOf_identifier hc (Optimizer.reduceAt_identifier_iff.mp h).2
      | unary w op operand =>
          obtain ⟨-, x, hx, h⟩ := Optimizer.reduceAt_unary_iff.mp h
          exact lineOf_unary hc.domain (tracked operand (by simp [Node.children]) x hx) h
      | binary w op left right =>
          obtain ⟨-, x, hx, y, hy, h⟩ := Optimizer.reduceAt_binary_iff.mp h
          exact lineOf_binary hc.domain (tracked left (by simp [Node.children]) x hx)
            (tracked right (by simp [Node.children]) y hy) h
      | logical w op operands =>
          obtain ⟨-, xs, hxs, h⟩ := Optimizer.reduceAt_logical_iff.mp h
          exact lineOf_logical hc.domain (forall₂_imp_of_mem hxs tracked) h
      | array w elements =>
          obtain ⟨-, xs, hxs, h⟩ := Optimizer.reduceAt_array_iff.mp h
          exact lineOf_array hc.domain (forall₂_imp_of_mem hxs tracked) h
      | conditional w test consequent alternate =>
          obtain ⟨-, x, hx, y, hy, z, hz, h⟩ := Optimizer.reduceAt_conditional_iff.mp h
          exact lineOf_conditional hc.domain (tracked test (by simp [Node.children]) x hx)
            (tracked consequent (by simp [Node.children]) y hy)
            (tracked alternate (by simp [Node.children]) z hz) h
      | sequence w expressions =>
          obtain ⟨-, xs, hxs, h⟩ := Optimizer.reduceAt_sequence_iff.mp h
          exact lineOf_sequence hc.domain (forall₂_imp_of_mem hxs tracked) h
      | call w callee arguments =>
          obtain ⟨-, x, hx, feature, hfeature, xs, -, h⟩ := Optimizer.reduceAt_call_iff.mp h
          exact lineOf_call hc hfeature h
      | member w object path =>
          obtain ⟨-, x, hx, h⟩ := Optimizer.reduceAt_member_iff.mp h
          exact lineOf_member hc (Optimizer.settled_of_reduceAt hx) h

/-- What a settled tree is written as is its constant. -/
theorem exists_literal?_of_literalText (hdomain : c.domain = domain) (hr : c.Settled r) {sql : String}
    (htext : literalText r.node = .ok sql) : ∃ f, r.result.literal? = some f ∧ f.toSql = sql := by
  cases hr with
  | constant constant =>
      obtain ⟨value, verbatim, f, hrendered, rfl⟩ := constant
      rw [hdomain] at hrendered
      obtain ⟨g, hg, rfl⟩ := map_eq_ok_iff.mp htext
      cases hrendered.symm.trans hg
      exact ⟨f, rfl, rfl⟩
  | _ => cases htext

/-- **Comments in compiled text.** Where columns and parameters have no characters of strings and comments,
a rule that was read never opens a block comment, and opens a line comment exactly when one of its written
subtractions has a right operand that begins with a minus sign. -/
theorem comments_of_compileToSql (hc : c.IsMarkFree) {json : Json} {ast : Node} {sql : String}
    (hread : Node.ofJson? json = some ast) (h : compileToSql c ast = .ok sql) :
    ¬ OpensComment '/' '*' sql.toList ∧ (OpensComment '-' '-' sql.toList ↔ DoublesMinus c ast) := by
  obtain ⟨r, hr, htext⟩ := compileToSql_eq_ok_iff.mp h
  obtain ⟨f, hf, rfl⟩ :=
    exists_literal?_of_literalText hc.domain (Optimizer.settled_of_reduceAt hr) htext
  have hline := lineOf_reduceAt hc (Node.unmarked_of_ofJson? hread) hr f hf
  exact ⟨hline.operand.block, hline.opensLine_iff⟩

/-- A text looks like the name of a column or a parameter. -/
def IsPlainName (text : String) : Prop :=
  ∀ ch ∈ text.toList, ch.isAlphanum ∨ ch ∈ ['_', '.', ':']

instance : DecidablePred IsPlainName := fun text =>
  decidable_of_iff (text.toList.all fun ch => ch.isAlphanum || ['_', '.', ':'].contains ch)
    (by simp [IsPlainName])

/-- A plain name has no characters of marks. -/
theorem markFree_of_isPlainName {text : String} (h : IsPlainName text) : MarkFree text := by
  intro ch hch hmark
  simp only [commentMarks, List.mem_cons, List.not_mem_nil, or_false] at hmark
  rcases hmark with rfl | rfl | rfl | rfl
  all_goals exact absurd (h _ hch) (by decide)

/-- Classifiers volunteer their membership test and declare a scalar. -/
theorem describes_classifier (classifier : Classifier) (h : MarkFree classifier.column)
    {arguments : List (Reduction Fragment)} {description : Description Fragment}
    (hdescribe : classifier.sqlFeature.describe arguments = .ok description) :
    (∀ f, description.value? = some f → Quiet f.toSql) ∧
      ∀ text ∈ description.returns.texts, MarkFree text := by
  change classifier.describe (some (.text classifier.membership)) _ = .ok description at hdescribe
  unfold Classifier.describe at hdescribe
  split at hdescribe
  · cases hdescribe
    refine ⟨fun f hf => ?_, List.forall_mem_nil _⟩
    cases hf
    exact quiet_membership h
  · cases hdescribe

end Sql

namespace Sample

open Sql

/-- A compiler over one column with the classifiers. -/
def amountCompiler : Compiler :=
  withClassifiers (newCompiler ⟨[("amount", .field "t.amount")]⟩)

/-- The subtraction of a negated amount. -/
def subtractedNegation : Json :=
  .object [("type", .string "BinaryExpression"), ("operator", .string "-"),
    ("left", .object [("type", .string "Identifier"), ("name", .string "amount")]),
    ("right", .object [("type", .string "UnaryExpression"), ("operator", .string "-"),
      ("operand", .object [("type", .string "Identifier"), ("name", .string "amount")])])]

/-- The two minus signs of the subtraction open a line comment, and its parts double no minus sign. -/
theorem comments_of_subtractedNegation : amountCompiler.IsMarkFree ∧
    ∃ ast, Node.ofJson? subtractedNegation = some ast ∧
      compileToSql amountCompiler ast = .ok "(t.amount--(t.amount))" ∧
      ¬ OpensComment '/' '*' "(t.amount--(t.amount))".toList ∧ DoublesMinus amountCompiler ast := by
  have hc : amountCompiler.IsMarkFree := by
    have hcolumn : MarkFree Classifier.defaultColumn := markFree_of_isPlainName (by decide)
    refine ⟨rfl, List.forall_mem_singleton.mpr (markFree_of_isPlainName (by decide)), ?_⟩
    intro entry hentry arguments description hdescribe
    rcases List.mem_cons.mp hentry with rfl | hentry
    · exact describes_classifier .credit hcolumn hdescribe
    · obtain rfl := List.mem_singleton.mp hentry
      exact describes_classifier .debit hcolumn hdescribe
  have hread : ∃ ast, Node.ofJson? subtractedNegation = some ast ∧
      compileToSql amountCompiler ast = .ok "(t.amount--(t.amount))" := ⟨_, rfl, rfl⟩
  obtain ⟨ast, hread, hsql⟩ := hread
  have hcomments := comments_of_compileToSql hc hread hsql
  have hline : OpensComment '-' '-' "(t.amount--(t.amount))".toList :=
    ⟨"(t.amount".toList, "(t.amount))".toList, rfl, by decide⟩
  exact ⟨hc, ast, hread, hsql, hcomments.1, hcomments.2.mp hline⟩

/-- Over a column with a plain name, a rule that was read compiles to a text that opens a line comment. -/
theorem opensComment_subtractedNegation :
    (∀ text ∈ amountCompiler.schema.texts, IsPlainName text) ∧
      ∃ ast sql, Node.ofJson? subtractedNegation = some ast ∧
        compileToSql amountCompiler ast = .ok sql ∧ OpensComment '-' '-' sql.toList := by
  refine ⟨List.forall_mem_singleton.mpr (by decide), _, "(t.amount--(t.amount))", rfl, rfl, ?_⟩
  exact ⟨"(t.amount".toList, "(t.amount))".toList, rfl, by decide⟩

end Sample

end RuleLang
