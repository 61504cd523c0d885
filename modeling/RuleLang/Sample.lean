import RuleLang.Feature.Transaction

/-!
# A sample set-up

Schemas, a scope and rules to experiment with: a transaction under review, the columns of past
transactions, and four rules over them.

* `Sample.engine`, `Sample.compiler`: an engine and a compiler over the sample schemas.
* `Sample.scope`: values for the names of the engine's schema.
* `Sample.rules`, `Sample.sqlRule`: rules as they are read from documents.
-/

namespace RuleLang.Sample

/-- The members of a transaction, in ascending order. -/
def transactionMembers (shape : String → Shape) : Shape :=
  .object (["amount", "country", "currency", "label", "type"].map fun name => (name, shape name))

/-- The schema of the engine: the transaction under review and a list of countries. -/
def valueSchema : Schema :=
  ⟨[("prohibitedCountries", .scalar "array"),
    ("trx", transactionMembers fun name => .scalar (if name = "amount" then "number" else "string"))]⟩

/-- The schema of the compiler: the transaction under review as parameters, past transactions as
columns, and a window of time. -/
def sqlSchema : Schema :=
  ⟨[("lastMonth", .field "INTERVAL 30 DAY"),
    ("past", transactionMembers fun name => .field ("t." ++ name)),
    ("trx", transactionMembers fun name => .placeholder (":" ++ name))]⟩

/-- A transaction of 500 euros from a prohibited country. -/
def scope : Scope :=
  ⟨[("prohibitedCountries", .array [.string "BY", .string "RU"]),
    ("trx", .object [("amount", .number (Number.ofInt 500)), ("country", .string "RU"),
      ("currency", .string "EUR"), ("label", .string "sepa-incoming"),
      ("type", .string "bank-incoming")])]⟩

/-- The compiler over `sqlSchema` with the classifiers. -/
def compiler : Sql.Compiler :=
  Sql.withClassifiers (Sql.newCompiler sqlSchema)

/-- The engine over `valueSchema` with all features. -/
def engine {ω : Type} (runner : QueryRunner ω) : Engine ω :=
  (Engine.new valueSchema).withTransactionFeatures compiler runner

/-- A member of a name. -/
def memberOf (name key : String) : Node :=
  .member 0 (.identifier 0 name) [.key key]

/-- A call of a feature. -/
def callOf (name : String) (arguments : List Node) : Node :=
  .call 0 (.identifier 0 name) arguments

/-- A number. -/
def numeral (i : Int) : Node :=
  .ofValue (.number (Number.ofInt i)) false

/-- The sample rules by title. -/
def rules : List (String × Node) :=
  [("large credit",
      .logical 0 .and
        [callOf "isCredit" [], .binary 0 .greater (memberOf "trx" "amount") (numeral 100)]),
    ("prohibited country",
      .binary 0 .within (memberOf "trx" "country") (.identifier 0 "prohibitedCountries")),
    ("constant folding",
      .logical 0 .or
        [.binary 0 .eq (numeral 1) (.ofValue (.string "2") false),
          .binary 0 .notEq (memberOf "trx" "currency") (.ofValue (.string "EUR") false)]),
    ("repeated country",
      callOf "count"
        [.binary 0 .eq (memberOf "past" "country") (memberOf "trx" "country"),
          .identifier 0 "lastMonth"])]

/-- A rule over past transactions. -/
def sqlRule : Node :=
  .logical 0 .and
    [callOf "isCredit" [], .binary 0 .greater (memberOf "past" "amount") (numeral 100)]

end RuleLang.Sample
