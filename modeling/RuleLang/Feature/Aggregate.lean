import RuleLang.Feature.Basic
import RuleLang.Sql.Compiler

/-!
# Aggregates over past transactions

An aggregate counts or sums the past transactions of the owner. Its arguments are compiled to SQL when
a rule is validated, and put into a statement that a runner executes.

* `Aggregate`: `count(filter?, period?)` and `sum(expression, filter?, period?)`.
* `Aggregate.statement`: the statement for compiled arguments.
* `Aggregate.feature`: the feature over a compiler and a runner.
-/

namespace RuleLang

/-- Executes a statement in a scope, from which it takes the bound parameters. -/
abbrev QueryRunner (ω : Type) := Scope → String → Computation ω RuleError Value

/-- The runner that answers with the statement itself. -/
def statementText {ω : Type} : QueryRunner ω :=
  fun _ statement => .pure (.string statement)

/-- A function over past transactions. -/
inductive Aggregate where
  | count
  | sum
  deriving DecidableEq

namespace Aggregate

/-- The name of the feature. -/
def name : Aggregate → String
  | count => "count"
  | sum => "sum"

/-- The number of arguments before the filter and the period. -/
def leading : Aggregate → Nat
  | count => 0
  | sum => 1

/-- Checks the number of arguments. -/
def checkArity (aggregate : Aggregate) (arity : Nat) : Except RuleError Unit :=
  if aggregate.leading ≤ arity ∧ arity ≤ aggregate.leading + 2 then .ok ()
  else
    .error (.typeError (aggregate.name ++ "() takes " ++ toString aggregate.leading ++ " to " ++
      toString (aggregate.leading + 2) ++ " arguments, got " ++ toString arity))

/-- What is selected. -/
def selection : Aggregate → List Value → String
  | count, _ => "COUNT(t.id)"
  | sum, arguments => "SUM(" ++ (arguments.head?.map Value.text).getD "" ++ ")"

/-- The condition that restricts a statement to the owner. -/
def ownerCondition : String := "t.identity_id=:identityId"

/-- The window of time: the period up to now, or everything up to now. -/
def windowCondition : Option Value → String
  | some period => "t.created_at BETWEEN DATE_SUB(NOW()," ++ period.text ++ ") AND NOW()"
  | none => "t.created_at<=NOW()"

/-- The conditions of a statement, given its filter and period. An argument that reads as false counts
as absent. -/
def conditions (filter? period? : Option Value) : List String :=
  [ownerCondition] ++ ((filter?.filter Value.isTruthy).map Value.text).toList ++
    [windowCondition (period?.filter Value.isTruthy)]

/-- The statement for compiled arguments. -/
def statement (aggregate : Aggregate) (arguments : List Value) : Except RuleError String := do
  aggregate.checkArity arguments.length
  let optional := arguments.drop aggregate.leading
  return "SELECT " ++ aggregate.selection arguments ++ " FROM transactions AS t WHERE " ++
    " AND ".intercalate (conditions optional[0]? optional[1]?)

/-- The cost of a query. -/
def queryWeight : Weight := .ofNat 100

/-- The aggregate as a feature: its arguments are compiled by `compiler`, and its statement is executed
by `runner`. -/
def feature {ω : Type} (aggregate : Aggregate) (compiler : Sql.Compiler) (runner : QueryRunner ω) :
    Feature ω where
  describe arguments := do
    aggregate.checkArity arguments.length
    return ⟨queryWeight, .scalar "number", none⟩
  argumentCompiler? := some (Sql.compileToSql compiler)
  call scope arguments :=
    match aggregate.statement arguments with
    | .ok statement => runner scope statement
    | .error e => .fail e

end Aggregate

end RuleLang
