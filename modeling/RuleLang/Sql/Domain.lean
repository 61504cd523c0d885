import RuleLang.Domain.Basic
import RuleLang.Sql.Fragment
import RuleLang.Text.Quoted
import RuleLang.Value.Text

/-!
# The domain of SQL

Constants are SQL fragments. Literals are quoted; verbatim literals, columns and parameters are written
unchanged. Operators that SQL does not have are errors.

* `Sql.scalar`, `Sql.listItem`: how a value is written as an expression and in a list.
* `Sql.domain`: the domain of SQL.
-/

namespace RuleLang.Sql

/-- A value as an expression. Numbers are quoted as texts are; arrays and objects have no such form. -/
def scalar : Value → Except RuleError String
  | .undefined => .ok "NULL"
  | .null => .ok "NULL"
  | .bool b => .ok (if b then "TRUE" else "FALSE")
  | .number x => .ok (Text.sqlQuoted (Number.text x))
  | .string s => .ok (Text.sqlQuoted s)
  | value => .error (.typeError (value.typeName ++ " literal has no SQL scalar form"))

/-- A value in a list, where numbers stand without quotes. -/
def listItem : Value → Except RuleError String
  | .number x => .ok (Number.text x)
  | value => scalar value

/-- A literal as a fragment. -/
def renderLiteral : Value → Bool → Except RuleError Fragment
  | .array items, true => .ok (.list (items.map Value.text))
  | value, true => .ok (.text value.text)
  | .array items, false => (items.mapM listItem).map .list
  | value, false => (scalar value).map .text

/-- A literal as an element of an array. -/
def renderElement : Value → Bool → Except RuleError Fragment
  | .number x, false => (listItem (.number x)).map .text
  | value, verbatim => renderLiteral value verbatim

/-- A fragment as a verbatim literal. -/
def store : Fragment → Value × Bool
  | .text sql => (.string sql, true)
  | .list items => (.array (items.map .string), true)

/-- What is written between the operands of an operator that SQL has in the middle. -/
def infixText? : BinaryOp → Option String
  | .multiply => some "*"
  | .divide => some "/"
  | .modulo => some "%"
  | .add => some "+"
  | .subtract => some "-"
  | .shiftLeft => some "<<"
  | .shiftRight => some ">>"
  | .lessEq => some "<="
  | .greaterEq => some ">="
  | .less => some "<"
  | .greater => some ">"
  | .eq => some "="
  | .notEq => some "!="
  | .bitAnd => some " & "
  | .bitXor => some " ^ "
  | .bitOr => some " | "
  | _ => none

/-- The name of the domain. -/
def domainName : String := "sql"

/-- An operator in front of a parenthesised operand. -/
def unary (op : UnaryOp) (operand : Fragment) : Fragment :=
  let sign := match op with
    | .plus => "+"
    | .minus => "-"
    | .bitNot => "~"
    | .not => "NOT "
  .text (sign ++ "(" ++ operand.toSql ++ ")")

/-- Membership in a list, or equality with an expression. -/
def within (left : String) : Fragment → String
  | .list items => left ++ " IN (" ++ ",".intercalate items ++ ")"
  | .text sql => left ++ "=" ++ sql

/-- An operator between two operands. -/
def binary (op : BinaryOp) (left right : Fragment) : Except RuleError Fragment :=
  match op with
  | .power => .ok (.text ("POWER(" ++ left.toSql ++ "," ++ right.toSql ++ ")"))
  | .within => .ok (.text (within left.toSql right))
  | op =>
    match infixText? op with
    | some between => .ok (.text ("(" ++ left.toSql ++ between ++ right.toSql ++ ")"))
    | none => .error (.unsupportedOperator op.symbol domainName)

/-- What is written between the operands of a chain. -/
def separator : LogicalOp → String
  | .and => " AND "
  | .or => " OR "

/-- A chain: a truth value for no operand, the operand itself for one, else the operands in
parentheses. -/
def logical (op : LogicalOp) (operands : List Fragment) : Fragment :=
  match operands with
  | [] => .text (if op.neutral then "TRUE" else "FALSE")
  | [single] => .text single.toSql
  | operands => .text ((separator op).intercalate (operands.map fun operand => enclose operand.toSql))

/-- A conditional expression. -/
def conditional (test consequent alternate : Fragment) : Fragment :=
  .text ("CASE WHEN " ++ test.toSql ++ " THEN " ++ consequent.toSql ++ " ELSE " ++ alternate.toSql ++
    " END")

/-- Columns and parameters are written as they are declared. -/
def splice : Shape → Option Fragment
  | .field column => some (.text column)
  | .placeholder marker => some (.text marker)
  | _ => none

/-- Constants are SQL fragments. -/
def domain : Domain Fragment where
  name := domainName
  renderLiteral := renderLiteral
  renderElement := renderElement
  store := store
  unary := unary
  binary := binary
  logical := logical
  array elements := .list (elements.map Fragment.toSql)
  conditional := conditional
  splice := splice

end RuleLang.Sql
