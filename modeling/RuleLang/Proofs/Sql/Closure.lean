import RuleLang.Proofs.Feature.Aggregate
import RuleLang.Proofs.Sql.Closed
import RuleLang.Proofs.Sql.Invariant

/-!
# Compiled text stays where it is put

Where the columns and parameters of a compiler are closed, so is everything that it compiles to, whatever
texts a tree holds. Statements are made of such text and of fixed text that is closed itself, so that no
filter or period reaches out of its place in a statement.

* `Sql.Compiler.IsClosed`: compilers with classifiers as their only features, over closed texts.
* `Sql.kept_closed`: operators keep closed text closed.
* `Aggregate.closed_statement`: a statement for closed texts is closed.
* `Sql.closed_of_compileToSql`: compiled text is closed, and so are the statements made of such text.
-/

namespace RuleLang

namespace Sql

/-- A compiler with classifiers as its only features, in whose columns and parameters all quotes and
parentheses are closed. -/
structure Compiler.IsClosed (compiler : Compiler) : Prop where
  domain : compiler.domain = Sql.domain
  schema : ∀ text ∈ compiler.schema.texts, Closed text.toList
  features : ∀ entry ∈ compiler.features,
    ∃ classifier : Classifier, Closed classifier.column.toList ∧ entry.2 = classifier.sqlFeature

/-- Closed texts are kept by all operators. -/
theorem kept_closed : Kept fun f => Closed f.toSql.toList where
  literal _ _ h := closed_renderLiteral h
  element _ _ h := closed_renderElement h
  unary op _ h := closed_unary op h
  binary _ _ _ _ h hf hg := closed_binary h hf hg
  logical op _ h := closed_logical op h
  array _ h := closed_list (List.forall_mem_map.mpr h)
  conditional _ _ _ htest hf hg := closed_conditional htest hf hg

/-- A closed compiler writes closed texts only. -/
theorem Compiler.IsClosed.over {compiler : Compiler} (h : compiler.IsClosed) :
    compiler.Over fun f => Closed f.toSql.toList where
  domain := h.domain
  schema := h.schema
  features entry hentry := by
    obtain ⟨classifier, hcolumn, hfeature⟩ := h.features entry hentry
    exact ⟨classifier, closed_membership hcolumn, hfeature⟩

end Sql

/-! ### Statements -/

namespace Aggregate

open Sql

variable {aggregate : Aggregate} {texts : List String} {filter? period? : Option String}

/-- What an aggregate selects is closed if its arguments are. -/
theorem closed_selectText (h : ∀ text ∈ texts, Closed text.toList) :
    Closed (aggregate.selectText texts).toList := by
  have hselection : Closed (aggregate.selection (texts.map .string)).toList := by
    cases aggregate with
    | count => exact (by decide : Closed "COUNT(t.id)".toList)
    | sum =>
        cases texts with
        | nil => decide
        | cons text rest =>
            have hsum := closed_applied (by decide : Closed "SUM".toList) (h text List.mem_cons_self)
            simpa [selection, Value.text] using hsum
  exact closed_append (closed_append (by decide) hselection) (by decide)

/-- The condition on the period is closed if the period is. -/
theorem closed_windowText (h : ∀ period, period? = some period → Closed period.toList) :
    Closed (windowText period?).toList := by
  cases period? with
  | none => exact (by decide : Closed "t.created_at<=NOW()".toList)
  | some period =>
      have hsince := closed_append (by decide : Closed "NOW(),".toList) (h period rfl)
      have hfrom := closed_applied (by decide : Closed "t.created_at BETWEEN DATE_SUB".toList) hsince
      have hwindow := closed_append hfrom (by decide : Closed " AND NOW()".toList)
      have hopen : "t.created_at BETWEEN DATE_SUB(NOW()," =
          "t.created_at BETWEEN DATE_SUB" ++ "(" ++ "NOW()," := by rfl
      have hclose : ") AND NOW()" = ")" ++ " AND NOW()" := by rfl
      change Closed ("t.created_at BETWEEN DATE_SUB(NOW()," ++ period ++ ") AND NOW()").toList
      rw [hopen, hclose]
      simpa only [String.append_assoc] using hwindow

/-- The condition of a statement is closed if its parts are. -/
theorem closed_whereText (hfilter : ∀ filter, filter? = some filter → Closed filter.toList)
    (hperiod : ∀ period, period? = some period → Closed period.toList) :
    Closed (whereText filter? period?).toList := by
  refine closed_intercalate (by decide) fun condition hcondition => ?_
  rcases List.mem_append.mp hcondition with hcondition | hcondition
  · rcases List.mem_append.mp hcondition with hcondition | hcondition
    · rw [List.mem_singleton.mp hcondition]
      decide
    · exact hfilter condition (Option.mem_toList.mp hcondition)
  · rw [List.mem_singleton.mp hcondition]
    exact closed_windowText hperiod

/-- A statement for closed texts is closed. -/
theorem closed_statement {sql : String} (htexts : ∀ text ∈ texts, Closed text.toList)
    (h : aggregate.statement (texts.map .string) = .ok sql) : Closed sql.toList := by
  have hargument (i : Nat) (text : String)
      (htext : ((texts.drop aggregate.leading)[i]?.filter fun text => !text.isEmpty) = some text) :
      Closed text.toList := by
    have hmem := List.mem_of_getElem? (Option.filter_eq_some_iff.mp htext).1
    exact htexts text (List.mem_of_mem_drop hmem)
  cases harity : aggregate.checkArity texts.length with
  | error e =>
      unfold statement at h
      rw [List.length_map, harity] at h
      cases h
  | ok checked =>
      rw [statement_eq harity] at h
      cases h
      exact closed_append (closed_selectText htexts) (closed_whereText (hargument 0) (hargument 1))

end Aggregate

/-- **Compiled text stays where it is put.** In whatever a tree that was read compiles to, all quotes and
parentheses are closed, and no parenthesis closes that was not opened. The same holds of every statement
that an aggregate makes of such texts. -/
theorem Sql.closed_of_compileToSql {compiler : Compiler} (hcompiler : compiler.IsClosed) {json : Json}
    {ast : Node} (hread : Node.ofJson? json = some ast) :
    (∀ sql, compileToSql compiler ast = .ok sql → Closed sql.toList) ∧
      ∀ (aggregate : Aggregate) (texts : List String) (sql : String),
        (∀ text ∈ texts, Closed text.toList) → aggregate.statement (texts.map .string) = .ok sql →
          Closed sql.toList := by
  constructor
  · intro sql hsql
    obtain ⟨f, hf, rfl⟩ :=
      kept_closed.exists_compileToSql hcompiler.over (Node.unmarked_of_ofJson? hread) hsql
    exact hf
  · intro aggregate texts sql htexts hstatement
    exact aggregate.closed_statement htexts hstatement

namespace Sample

/-- A rule about past transactions from one of two countries, the first of which has a quote and
parentheses in its name. -/
def hostileDocument : Json :=
  .object [("type", .string "BinaryExpression"), ("operator", .string "in"),
    ("left", .object [("type", .string "MemberExpression"),
      ("object", .object [("type", .string "Identifier"), ("name", .string "past")]),
      ("path", .array [.string "country"])]),
    ("right", .object [("type", .string "ArrayExpression"),
      ("elements", .array
        [.object [("type", .string "Literal"), ("value", .string "') OR ((1=1")],
          .object [("type", .string "Literal"), ("value", .string "RU")]])])]

/-- What `hostileDocument` compiles to. -/
def hostileText : String := "t.country IN (''') OR ((1=1','RU')"

/-- The text of the rule is closed, and so is the statement that counts with it as a filter. -/
theorem closed_of_compileToSql_hostileDocument : ∃ ast statement,
    Node.ofJson? hostileDocument = some ast ∧ Sql.compileToSql compiler ast = .ok hostileText ∧
      Sql.Closed hostileText.toList ∧
      Aggregate.count.statement [.string hostileText] = .ok statement ∧
      Sql.Closed statement.toList := by
  have hcompiler : compiler.IsClosed := by
    refine ⟨rfl, by decide, fun entry hentry => ?_⟩
    rcases List.mem_cons.mp hentry with rfl | hentry
    · exact ⟨.credit, by decide, rfl⟩
    · rw [List.mem_singleton.mp hentry]
      exact ⟨.debit, by decide, rfl⟩
  have hread : ∃ ast, Node.ofJson? hostileDocument = some ast ∧
      Sql.compileToSql compiler ast = .ok hostileText := ⟨_, rfl, rfl⟩
  obtain ⟨ast, hread, hsql⟩ := hread
  have hstatement : ∃ statement, Aggregate.count.statement [.string hostileText] = .ok statement :=
    ⟨_, rfl⟩
  obtain ⟨statement, hstatement⟩ := hstatement
  have hclosed := Sql.closed_of_compileToSql hcompiler hread
  have htext := hclosed.1 hostileText hsql
  exact ⟨ast, statement, hread, hsql, htext, hstatement,
    hclosed.2 .count [hostileText] statement (List.forall_mem_singleton.mpr htext) hstatement⟩

end Sample

end RuleLang
