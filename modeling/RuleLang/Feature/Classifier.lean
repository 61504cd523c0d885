import RuleLang.Feature.Basic
import RuleLang.Sql.Fragment
import RuleLang.Text.Quoted
import RuleLang.Value.Access

/-!
# Classifiers of transactions

A classifier tests the type of the transaction under review against a fixed list. In SQL it is a
membership test on a column.

* `Classifier.credit`, `Classifier.debit`: incoming and outgoing money.
* `Classifier.feature`: the test in evaluation.
* `Classifier.sqlFeature`: the test in SQL.
-/

namespace RuleLang

/-- A test of the type of a transaction. -/
structure Classifier where
  name : String
  /-- The types that pass. -/
  types : List String
  /-- The column that holds the type in SQL. -/
  column : String

namespace Classifier

/-- The column that holds the type unless another one is given. -/
def defaultColumn : String := "t.type"

/-- Incoming money. -/
def credit : Classifier :=
  ⟨"isCredit", ["bank-incoming", "card-incoming", "settlement-incoming"], defaultColumn⟩

/-- Outgoing money. -/
def debit : Classifier :=
  ⟨"isDebit", ["bank-outgoing", "card-outgoing", "settlement-outgoing", "invoice-payment", "bank-fee",
    "card-fee"], defaultColumn⟩

/-- The same test on another column. -/
def withColumn (classifier : Classifier) (column : String) : Classifier :=
  { classifier with column := column }

/-- Whether a type passes. -/
def accepts (classifier : Classifier) (type : String) : Bool :=
  classifier.types.contains type

/-- The type of the transaction in a scope, if it is a text. -/
def transactionType? (scope : Scope) : Option String :=
  ((scope.get? "trx").bind fun trx => trx.get? (.key "type")).bind Value.string?

/-- The description of a call; there are no arguments. -/
def describe {V : Type} (classifier : Classifier) (value? : Option V)
    (arguments : List (Reduction V)) : Except RuleError (Description V) :=
  if arguments.isEmpty then .ok ⟨1, .scalar "boolean", value?⟩
  else
    .error (.typeError
      (classifier.name ++ "() takes no arguments, got " ++ toString arguments.length))

/-- The membership test in SQL. -/
def membership (classifier : Classifier) : String :=
  classifier.column ++ " IN (" ++ ",".intercalate (classifier.types.map Text.sqlQuoted) ++ ")"

/-- The test of the transaction in scope. -/
def feature {ω : Type} (classifier : Classifier) : Feature ω where
  describe := classifier.describe none
  argumentCompiler? := none
  call scope _ := .pure (.bool ((transactionType? scope).any classifier.accepts))

/-- The test in SQL, which is constant text. -/
def sqlFeature (classifier : Classifier) : StaticFeature Sql.Fragment where
  describe := classifier.describe (some (.text classifier.membership))
  argumentCompiler? := none

end Classifier

end RuleLang
