/-!
# SQL fragments

* `Sql.Fragment`: an expression, or a list of values such as `IN` takes on its right.
* `Sql.isEnclosed`: whether a text is one pair of parentheses from its first to its last character.
-/

namespace RuleLang.Sql

/-- A constant of SQL. -/
inductive Fragment where
  /-- An expression. -/
  | text (sql : String)
  /-- The texts of the items of a list. -/
  | list (items : List String)
  deriving DecidableEq

namespace Fragment

/-- A fragment as one expression; a list is written in parentheses. -/
def toSql : Fragment → String
  | text sql => sql
  | list items => "(" ++ ",".intercalate items ++ ")"

end Fragment

/-- Whether the scan of the rest of a text comes back to depth zero at its last character. Parentheses
inside quotes do not count. -/
def closesAtEnd (depth : Nat) (quoted : Bool) : List Char → Bool
  | [] => false
  | c :: rest =>
    if c = '\'' then closesAtEnd depth (!quoted) rest
    else if quoted then closesAtEnd depth quoted rest
    else if c = '(' then closesAtEnd (depth + 1) quoted rest
    else if c = ')' then
      if depth ≤ 1 then rest.isEmpty else closesAtEnd (depth - 1) quoted rest
    else closesAtEnd depth quoted rest

/-- Whether a list of characters is one pair of parentheses from its first to its last character. -/
def enclosedChars (cs : List Char) : Bool :=
  cs.head? == some '(' && cs.getLast? == some ')' && closesAtEnd 0 false cs

/-- Whether a text is one pair of parentheses from its first to its last character. -/
def isEnclosed (sql : String) : Bool :=
  enclosedChars sql.toList

/-- A text in parentheses, unless it is enclosed already. -/
def enclose (sql : String) : String :=
  if isEnclosed sql then sql else "(" ++ sql ++ ")"

end RuleLang.Sql
