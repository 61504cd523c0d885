import RuleLang.Proofs.Optimizer.Rules
import RuleLang.Sql.Compiler

/-!
# Rules on compiled text

Where all operands are compiled text, so is the node over them: every rule writes one text out of the
texts of the operands.

* `Sql.compiled`: compiled text with what is known of it.
* `Sql.fold_eq`: what a fragment is stored as.
* `Sql.joined`: the text of a binary node from the texts of its operands.
* `Sql.unary_compiled`, `Sql.binary_compiled_iff`, `Sql.logical_compiled`: what nodes over compiled text
  become.
* `Sql.compileToSql_eq_ok_iff`: a rule compiles to a text when it is validated to compiled text.
-/

namespace RuleLang.Sql

variable {c : Compiler} {a b : String} {r : Reduced Fragment}

/-- Compiled text with what is known of it. -/
def compiled (sql : String) : Reduced Fragment :=
  ⟨.ofValue (.string sql) true, .ofLiteral (.one "string") (.text sql)⟩

/-- What is known of a compiled text is the text. -/
@[simp] theorem literal?_compiled : (compiled a).result.literal? = some (.text a) := rfl

/-- A compiled text is no constant whose value is known. -/
@[simp] theorem constant?_compiled : (compiled a).node.constant? = none := rfl

/-- A compiled text is a literal. -/
@[simp] theorem isLiteral_compiled : (compiled a).node.isLiteral = true := rfl

/-- A stored fragment is rendered as itself. -/
theorem renderLiteral_store (f : Fragment) : renderLiteral (store f).1 true = .ok f := by
  cases f with
  | text sql => rfl
  | list items =>
      rw [store, renderLiteral, List.map_map]
      exact congrArg (fun xs => Except.ok (Fragment.list xs)) (List.map_id items)

/-- Storing a fragment never fails. -/
theorem fold_eq (hdomain : c.domain = domain) (f : Fragment) :
    c.fold f = .ok ⟨.ofValue (store f).1 true, .ofLiteral (.one (store f).1.typeName) f⟩ := by
  have hstored : (store f).2 = true := by cases f <;> rfl
  have hrendered : c.domain.renderLiteral (store f).1 true = .ok f := by
    rw [hdomain]
    exact renderLiteral_store f
  rw [Optimizer.fold, hdomain]
  change c.literal (store f).1 (store f).2 = _
  rw [hstored]
  exact Optimizer.literal_eq_ok_iff.mpr ⟨f, hrendered, rfl⟩

/-- A text folds to a compiled text. -/
theorem fold_text (hdomain : c.domain = domain) : c.fold (.text a) = .ok (compiled a) :=
  fold_eq hdomain (.text a)

/-- What is written in front of an operand in parentheses. -/
def sign : UnaryOp → String
  | .plus => "+"
  | .minus => "-"
  | .bitNot => "~"
  | .not => "NOT "

/-- An operator in front of a compiled text is compiled to its sign and the text in parentheses. -/
theorem unary_compiled (hdomain : c.domain = domain) (op : UnaryOp) :
    c.unary op (compiled a) = .ok (compiled (sign op ++ "(" ++ a ++ ")")) := by
  have hunary : unary op (.text a) = .text (sign op ++ "(" ++ a ++ ")") := by cases op <;> rfl
  rw [Optimizer.unary, literal?_compiled, hdomain]
  change c.fold (unary op (.text a)) = _
  rw [hunary]
  exact fold_text hdomain

/-- What is written between the operands of an operator in the middle. -/
def between (op : BinaryOp) : String :=
  (infixText? op).getD op.symbol

/-- The text of a binary node from the texts of its operands. -/
def joined (op : BinaryOp) (a b : String) : String :=
  match op with
  | .power => "POWER(" ++ a ++ "," ++ b ++ ")"
  | .within => a ++ "=" ++ b
  | op => "(" ++ a ++ between op ++ b ++ ")"

/-- Operators other than `**` and `in` are written in the middle, in parentheses. -/
def IsInfix (op : BinaryOp) : Prop :=
  op ≠ .power ∧ op ≠ .within

/-- An operator is written between its operands, all in parentheses. -/
theorem IsInfix.joined_eq {op : BinaryOp} (h : IsInfix op) (a b : String) :
    joined op a b = "(" ++ a ++ between op ++ b ++ ")" := by
  cases op with
  | power => exact absurd rfl h.1
  | within => exact absurd rfl h.2
  | _ => rfl

/-- SQL has all operators but one, and they join the texts of their operands. -/
theorem binary_text {op : BinaryOp} (hop : op ≠ .shiftRightUnsigned) (a b : String) :
    binary op (.text a) (.text b) = .ok (.text (joined op a b)) := by
  cases op with
  | shiftRightUnsigned => exact absurd rfl hop
  | _ => rfl

/-- A binary node over compiled texts is what its operator makes of them. -/
theorem binary_compiled_iff (hdomain : c.domain = domain) {op : BinaryOp} :
    c.binary op (compiled a) (compiled b) = .ok r ↔
      op ≠ .shiftRightUnsigned ∧ r = compiled (joined op a b) := by
  rw [Optimizer.binary, literal?_compiled, literal?_compiled, hdomain]
  dsimp only [domain]
  by_cases hop : op = .shiftRightUnsigned
  · subst hop
    simp [binary, infixText?, Optimizer.fault]
  · rw [binary_text hop]
    dsimp only
    rw [fold_text hdomain, Except.ok.injEq, eq_comm, iff_and_self]
    exact fun _ => hop

/-- Compiled text is opaque: it is neither absorbed by a chain nor decides it. -/
theorem logical_compiled (hdomain : c.domain = domain) (op : LogicalOp) (texts : List String) :
    c.logical op (texts.map compiled) = .ok (compiled (logical op (texts.map .text)).toSql) := by
  have constants : Optimizer.constants (texts.map compiled) = texts.map Fragment.text := by
    simp [Optimizer.constants, List.filterMap_map, Function.comp_def]
  have undecided : (texts.map compiled).find? (c.isDecisive op) = none := by
    simp [Optimizer.isDecisive]
  have kept : (texts.map compiled).filter (fun x => !c.isAbsorbed x) = texts.map compiled := by
    simp [Optimizer.isAbsorbed]
  unfold Optimizer.logical
  rw [undecided, kept, constants, hdomain]
  cases texts with
  | nil => exact fold_text hdomain
  | cons text rest =>
      cases rest with
      | nil => rfl
      | cons next rest =>
          have literals : ((text :: next :: rest).map compiled).all fun x => x.node.isLiteral := by simp
          have unknown : ¬ ((text :: next :: rest).map compiled).all fun x => x.node.constant?.isSome := by
            simp
          rw [if_neg unknown, List.map_cons, List.map_cons]
          dsimp only
          rw [← List.map_cons, ← List.map_cons, if_pos literals, constants]
          exact fold_text hdomain

/-- A rule compiles to a text exactly when it is validated to a literal that is written so. -/
theorem compileToSql_eq_ok_iff {ast : Node} :
    compileToSql c ast = .ok a ↔ ∃ r, c.reduceAt 0 ast = .ok r ∧ literalText r.node = .ok a := by
  unfold compileToSql Optimizer.validate Optimizer.compile
  simp only [bind_eq_ok_iff, map_eq_ok_iff]
  constructor
  · rintro ⟨node, ⟨r, hr, rfl⟩, htext⟩
    exact ⟨r, hr, htext⟩
  · rintro ⟨r, hr, htext⟩
    exact ⟨r.node, ⟨r, hr, rfl⟩, htext⟩

end RuleLang.Sql
