import RuleLang.Proofs.Feature.Aggregate
import RuleLang.Proofs.Number.Signs
import RuleLang.Proofs.Sql.Compiled

/-!
# Optional arguments of aggregates

A filter or a period that reads as false is left out of a statement. What a validated call hands over is
the compiled text of the argument, and the text of a constant is never empty, unless it is verbatim and
empty itself. So a constant that reads as false is left out when the statement is made for the constant,
and stands in the statement when the call was validated.

* `Aggregate.optionalText?`: the text of an optional argument that is not left out.
* `Aggregate.statement_of_values`: the statement for any values.
* `Sql.isEmpty_of_literal_iff`: the constants with an empty text.
* `Engine.condition_of_literal_iff`: which constants a validated call leaves out, and when that agrees
  with the statement for the constant itself.
-/

namespace RuleLang

/-! ### Texts that are not empty -/

/-- Every number is written with at least one character. -/
theorem Number.text_ne_empty (x : Float) : text x ≠ "" := by
  have hrender (d : Decimal) : plainFormat.render d ≠ "" := by
    intro hempty
    obtain ⟨c, hc, -⟩ := (unsigned_render d).begins
    rw [hempty] at hc
    cases hc
  rw [text]
  split
  · rw [integerText, Ne, ← String.toList_inj, String.toList_ofList]
    split
    · exact List.cons_ne_nil _ _
    · exact decimalDigits_ne_nil _
  · split
    · decide
    · split <;> decide
    · rw [NumberFormat.renderDyadic, Ne, String.append_eq_empty_iff]
      exact fun hempty => hrender _ hempty.2

namespace Sql

variable {value : Value} {verbatim : Bool}

/-- A list is written in parentheses. -/
theorem toSql_list_ne_empty (items : List String) : (Fragment.list items).toSql ≠ "" := by
  simp [Fragment.toSql]

/-- A quoted text is never empty. -/
theorem sqlQuoted_ne_empty (s : String) : Text.sqlQuoted s ≠ "" := by
  simp [Text.sqlQuoted, ← String.toList_inj]

/-- The expression for a value is never empty. -/
theorem scalar_ne_empty {sql : String} (h : scalar value = .ok sql) : sql ≠ "" := by
  cases value with
  | undefined | null =>
      cases h
      decide
  | bool b =>
      cases h
      cases b <;> decide
  | number x =>
      cases h
      exact sqlQuoted_ne_empty _
  | string s =>
      cases h
      exact sqlQuoted_ne_empty _
  | array items | object members => cases h

/-- Of the constants only the verbatim empty text is rendered as nothing. -/
theorem toSql_renderLiteral_eq_empty_iff {f : Fragment} (h : renderLiteral value verbatim = .ok f) :
    f.toSql = "" ↔ verbatim = true ∧ value = .string "" := by
  cases verbatim with
  | false =>
      simp only [Bool.false_eq_true, false_and, iff_false]
      cases value with
      | array items =>
          obtain ⟨texts, -, rfl⟩ := map_eq_ok_iff.mp h
          exact toSql_list_ne_empty texts
      | _ =>
          simp only [renderLiteral, map_eq_ok_iff] at h
          obtain ⟨sql, hsql, rfl⟩ := h
          exact scalar_ne_empty hsql
  | true =>
      cases value with
      | array items =>
          cases h
          simp [toSql_list_ne_empty]
      | string s =>
          cases h
          simp [Fragment.toSql, Value.text]
      | number x =>
          cases h
          simp [Fragment.toSql, Value.text, Number.text_ne_empty]
      | bool b =>
          cases h
          cases b <;> simp [Fragment.toSql, Value.text]
      | undefined | null | object members =>
          cases h
          simp [Fragment.toSql, Value.text]

/-- Of the constants that compile only the verbatim empty text has an empty text. -/
theorem isEmpty_of_literal_iff {compiler : Compiler} {weight : Weight} {text : String}
    (h : compileToSql compiler (.literal weight value verbatim) = .ok text) :
    text.isEmpty ↔ verbatim = true ∧ value = .string "" := by
  obtain ⟨r, hr, htext⟩ := compileToSql_eq_ok_iff.mp h
  obtain ⟨rendered, -, rfl⟩ :=
    Optimizer.literal_eq_ok_iff.mp (Optimizer.reduceAt_literal_iff.mp hr).2
  obtain ⟨f, hf, rfl⟩ := map_eq_ok_iff.mp htext
  rw [String.isEmpty_iff]
  exact toSql_renderLiteral_eq_empty_iff hf

end Sql

/-! ### Statements -/

namespace Aggregate

/-- The text of the filter (0) or of the period (1) among arguments, unless it is missing or reads as
false. -/
def optionalText? (aggregate : Aggregate) (i : Nat) (arguments : List Value) : Option String :=
  ((arguments.drop aggregate.leading)[i]?.filter Value.isTruthy).map Value.text

variable {aggregate : Aggregate} {i : Nat} {arguments : List Value} {texts : List String}

/-- An argument has its text in a statement if it reads as true. -/
theorem isSome_optionalText?_iff {v : Value} (h : (arguments.drop aggregate.leading)[i]? = some v) :
    (aggregate.optionalText? i arguments).isSome ↔ v.isTruthy := by
  rw [optionalText?, h, Option.isSome_map, Option.filter_some]
  split <;> simp_all

/-- A compiled text stands in a statement if it is not empty. -/
theorem optionalText?_texts :
    aggregate.optionalText? i (texts.map .string) =
      (texts.drop aggregate.leading)[i]?.filter fun text => !text.isEmpty := by
  rw [optionalText?, ← List.map_drop, List.getElem?_map, filter_isTruthy, Option.map_map]
  exact Option.map_id'

/-- The window of time for a period that reads as false is that for none. -/
theorem windowCondition_filter (period? : Option Value) :
    windowCondition (period?.filter Value.isTruthy) =
      windowText ((period?.filter Value.isTruthy).map Value.text) := by
  cases period?.filter Value.isTruthy <;> rfl

/-- The statement for any values, compiled or not. -/
theorem statement_of_values (harity : aggregate.checkArity arguments.length = .ok ()) :
    aggregate.statement arguments = .ok ("SELECT " ++ aggregate.selection arguments ++
      " FROM transactions AS t WHERE " ++
        whereText (aggregate.optionalText? 0 arguments) (aggregate.optionalText? 1 arguments)) := by
  unfold statement
  rw [harity]
  simp only [bind, Except.bind, pure, Except.pure, conditions, windowCondition_filter]
  rfl

end Aggregate

/-! ### Validated calls -/

namespace Engine

variable {ω : Type} {engine : Engine ω} {name : String} {aggregate : Aggregate}
  {compiler : Sql.Compiler} {runner : QueryRunner ω}

/-- What stands in the place of an argument is its text. -/
theorem exists_text_of_argument {arguments : List Node} {texts : List String} {i : Nat} {argument : Node}
    (hcompiled : List.Forall₂ (fun argument text => Sql.compileToSql compiler argument = .ok text)
      arguments texts)
    (h : arguments[i]? = some argument) :
    ∃ text, texts[i]? = some text ∧ Sql.compileToSql compiler argument = .ok text := by
  induction hcompiled generalizing i with
  | nil => cases h
  | @cons first text rest others head tail ih =>
      cases i with
      | zero =>
          cases h
          exact ⟨text, rfl, head⟩
      | succ i => exact ih h

/-- A validated call of an aggregate executes a statement in which every constant stands as filter or as
period but the verbatim empty text. The statement for the value of the constant leaves it out when it
reads as false. So the two statements agree about a constant that reads as true and about that empty text,
and about no other one. -/
theorem condition_of_literal_iff (reachable : engine.Reachable)
    (registered : engine.evaluator.feature? name = some (aggregate.feature compiler runner))
    {w u : Weight} {arguments : List Node} {validated : Node}
    (h : engine.validate (.call w (.identifier u name) arguments) = .ok validated) (scope : Scope) :
    ∃ texts, List.Forall₂ (fun argument text => Sql.compileToSql compiler argument = .ok text)
        arguments texts ∧
      engine.valueOf scope validated =
        .mapError (.featureFailed name) (runner scope (aggregate.selectText texts ++
          Aggregate.whereText (aggregate.optionalText? 0 (texts.map .string))
            (aggregate.optionalText? 1 (texts.map .string)))) ∧
      (∀ values, aggregate.checkArity values.length = .ok () →
        aggregate.statement values = .ok ("SELECT " ++ aggregate.selection values ++
          " FROM transactions AS t WHERE " ++
            Aggregate.whereText (aggregate.optionalText? 0 values) (aggregate.optionalText? 1 values))) ∧
      ∀ i weight v verbatim,
        (arguments.drop aggregate.leading)[i]? = some (.literal weight v verbatim) →
          ((aggregate.optionalText? i (texts.map .string)).isSome ↔
            ¬ (verbatim = true ∧ v = .string "")) ∧
          (((aggregate.optionalText? i (texts.map .string)).isSome ↔ v.isTruthy) ↔
            v.isTruthy ∨ verbatim = true ∧ v = .string "") ∧
          ∀ values : List Value, (values.drop aggregate.leading)[i]? = some v →
            ((aggregate.optionalText? i values).isSome ↔ v.isTruthy) := by
  obtain ⟨weight, texts, rfl, hcompiled, harity⟩ :=
    reachable.coherent.validate_aggregate registered h
  have hstatement : engine.valueOf scope (textCall weight name texts) = _ :=
    valueOf_textCall registered harity scope
  refine ⟨texts, hcompiled, ?_, fun values => Aggregate.statement_of_values, ?_⟩
  · rw [hstatement, Aggregate.optionalText?_texts, Aggregate.optionalText?_texts]
    rfl
  · intro i weight v verbatim hargument
    have hdropped := List.forall₂_drop aggregate.leading hcompiled
    obtain ⟨text, htext, hliteral⟩ := exists_text_of_argument hdropped hargument
    have hpresent : (aggregate.optionalText? i (texts.map .string)).isSome ↔
        ¬ (verbatim = true ∧ v = .string "") := by
      rw [Aggregate.optionalText?_texts, htext, ← Sql.isEmpty_of_literal_iff hliteral,
        Option.filter_some]
      cases text.isEmpty <;> simp
    refine ⟨hpresent, ?_, fun values => Aggregate.isSome_optionalText?_iff⟩
    rw [hpresent]
    by_cases hempty : verbatim = true ∧ v = .string ""
    · obtain ⟨rfl, rfl⟩ := hempty
      simp [Value.isTruthy]
    · simp [hempty]

end Engine

namespace Sample

/-- The sum of the amounts of the last month, over a filter. -/
def sumOfMonth (filter : Node) : Node :=
  callOf "sum" [memberOf "past" "amount", filter, .identifier 0 "lastMonth"]

/-- A filter that is true stands in the statement, as it does in the statement for the value. -/
theorem condition_of_literal_true : ∃ validated,
    (engine (ω := Unit) statementText).validate (sumOfMonth (.ofValue (.bool true) false)) =
        .ok validated ∧
      (Aggregate.sum.optionalText? 0 (["t.amount", "TRUE", "INTERVAL 30 DAY"].map .string)).isSome ∧
      (Aggregate.sum.optionalText? 0 [.string "t.amount", .bool true, .null]).isSome := by
  have reachable : (engine (ω := Unit) statementText).Reachable :=
    (Engine.Reachable.new valueSchema).withTransactionFeatures compiler statementText
  have hvalidate : ∃ validated, (engine (ω := Unit) statementText).validate
      (sumOfMonth (.ofValue (.bool true) false)) = .ok validated := ⟨_, rfl⟩
  obtain ⟨validated, hvalidated⟩ := hvalidate
  have registered : (engine (ω := Unit) statementText).evaluator.feature? "sum" =
      some (Aggregate.sum.feature compiler statementText) := rfl
  obtain ⟨texts, hcompiled, -, -, hconditions⟩ :=
    Engine.condition_of_literal_iff reachable registered hvalidated scope
  have hamount : Sql.compileToSql compiler (memberOf "past" "amount") = .ok "t.amount" := rfl
  have htrue : Sql.compileToSql compiler (.ofValue (.bool true) false) = .ok "TRUE" := rfl
  have hperiod : Sql.compileToSql compiler (.identifier 0 "lastMonth") = .ok "INTERVAL 30 DAY" := rfl
  have htexts : texts = ["t.amount", "TRUE", "INTERVAL 30 DAY"] := by
    rcases hcompiled with _ | ⟨first, _ | ⟨second, _ | ⟨third, _ | _⟩⟩⟩
    rw [hamount] at first
    rw [htrue] at second
    rw [hperiod] at third
    cases first
    cases second
    cases third
    rfl
  subst htexts
  obtain ⟨-, hagree, hitself⟩ := hconditions 0 0 (.bool true) false rfl
  exact ⟨validated, hvalidated, (hagree.mpr (.inl rfl)).mpr rfl, (hitself _ rfl).mpr rfl⟩

/-- An empty filter is left out of the statement for the values, and stands in the statement of the
validated call. -/
theorem not_condition_of_literal_empty : ∃ validated,
    (engine (ω := Unit) statementText).validate (sumOfMonth (.ofValue (.string "") false)) =
        .ok validated ∧
      (((engine (ω := Unit) statementText).valueOf scope validated).run ()).1 =
        .ok (.string ("SELECT SUM(t.amount) FROM transactions AS t WHERE t.identity_id=:identityId AND " ++
          "'' AND t.created_at BETWEEN DATE_SUB(NOW(),INTERVAL 30 DAY) AND NOW()")) ∧
      (Value.string "").isTruthy = false ∧
      Aggregate.sum.statement [.string "t.amount", .string "", .string "INTERVAL 30 DAY"] =
        .ok ("SELECT SUM(t.amount) FROM transactions AS t WHERE t.identity_id=:identityId AND " ++
          "t.created_at BETWEEN DATE_SUB(NOW(),INTERVAL 30 DAY) AND NOW()") :=
  ⟨Engine.textCall (.ofNat 102) "sum" ["t.amount", "''", "INTERVAL 30 DAY"], rfl, rfl, rfl, rfl⟩

end Sample

end RuleLang
