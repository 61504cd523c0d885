import RuleLang.Proofs.Engine.Registration
import RuleLang.Proofs.Evaluation.Answers
import RuleLang.Proofs.Optimizer.Settled
import RuleLang.Proofs.Sql.Clauses
import RuleLang.Sample

/-!
# What an aggregate asks for

The statement that a validated aggregate executes, and when its conditions are confined to the
owner: the text after `WHERE` is read as the owner's condition, what the filter is read as, and the
window of time, all of them at once.

* `Engine.valueOf_textCall`: a validated call of an aggregate executes the statement for its texts.
* `Aggregate.alternatives?_whereText`: how the text after `WHERE` is read, for every filter.
* `Aggregate.isConfined_iff`: the text is confined exactly when the filter is a single alternative.
* `Engine.isConfined_validated_iff`: the same of the statement that a validated call executes.
-/

namespace RuleLang

namespace Aggregate

open Sql

/-! ### The text after `WHERE` -/

/-- The filter among compiled arguments. An empty text counts as absent. -/
def filterText? (aggregate : Aggregate) (texts : List String) : Option String :=
  (texts.drop aggregate.leading)[0]?.filter fun text => !text.isEmpty

/-- The period among compiled arguments. An empty text counts as absent. -/
def periodText? (aggregate : Aggregate) (texts : List String) : Option String :=
  (texts.drop aggregate.leading)[1]?.filter fun text => !text.isEmpty

/-- The window of time for a period. -/
def windowText (period? : Option String) : String :=
  windowCondition (period?.map .string)

/-- The conditions for a filter and a period. -/
def whereText (filter? period? : Option String) : String :=
  " AND ".intercalate ([ownerCondition] ++ filter?.toList ++ [windowText period?])

/-- The statement in front of its conditions. -/
def selectText (aggregate : Aggregate) (texts : List String) : String :=
  "SELECT " ++ aggregate.selection (texts.map .string) ++ " FROM transactions AS t WHERE "

/-- A text that counts as absent reads as false. -/
theorem filter_isTruthy (text? : Option String) :
    (text?.map Value.string).filter Value.isTruthy =
      (text?.filter fun text => !text.isEmpty).map .string := by
  cases text? with
  | none => rfl
  | some text => cases h : text.isEmpty <;> simp [Option.filter, Value.isTruthy, h]

/-- The statement for compiled arguments. -/
theorem statement_eq {aggregate : Aggregate} {texts : List String}
    (harity : aggregate.checkArity texts.length = .ok ()) :
    aggregate.statement (texts.map .string) = .ok (aggregate.selectText texts ++
      whereText (aggregate.filterText? texts) (aggregate.periodText? texts)) := by
  have hfilter := filter_isTruthy (texts.drop aggregate.leading)[0]?
  have hperiod := filter_isTruthy (texts.drop aggregate.leading)[1]?
  unfold statement
  rw [List.length_map, harity]
  simp only [bind, Except.bind, pure, Except.pure]
  rw [← List.map_drop, List.getElem?_map, List.getElem?_map, conditions, hfilter, hperiod]
  simp [selectText, whereText, filterText?, periodText?, windowText, Option.map_map,
    Function.comp_def, Value.text, String.append_assoc]

/-! ### How it is read -/

/-- A condition stands between that on the owner and that on the period. -/
theorem whereText_some (filter : String) (period? : Option String) :
    whereText (some filter) period? =
      ownerCondition ++ " AND " ++ (filter ++ " AND " ++ windowText period?) := by
  simp [whereText, String.append_assoc]

/-- Without a condition there are those on the owner and on the period. -/
theorem whereText_none (period? : Option String) :
    whereText none period? = ownerCondition ++ " AND " ++ windowText period? := by
  simp [whereText, String.append_assoc]

/-- The owner's condition in front of other conditions. -/
theorem alternatives?_ownerCondition_and (sql : String) :
    alternatives? (ownerCondition ++ " AND " ++ sql) =
      (alternatives? sql).map (conjoin [[ownerCondition]]) :=
  alternatives?_and (by rfl)

/-- How the conditions are read. Only the first alternative of the filter is restricted to the
owner, and only the last one to the window. -/
theorem alternatives?_whereText {filter : String} {alternatives : List (List String)}
    (h : alternatives? filter = some alternatives) (period? : Option String) :
    alternatives? (whereText (some filter) period?) =
      ((alternatives? (windowText period?)).map (conjoin alternatives)).map
        (conjoin [[ownerCondition]]) := by
  rw [whereText_some, alternatives?_ownerCondition_and, alternatives?_and h]

/-- The conditions of a statement are confined to the owner: they are read as the owner's condition,
what the filter is read as, and the window, all of them at once. -/
def IsConfined (filter? period? : Option String) : Prop :=
  ∃ conditions, (filter? = none → conditions = []) ∧
    (∀ filter, filter? = some filter → alternatives? filter = some [conditions]) ∧
    alternatives? (whereText filter? period?) =
      some [ownerCondition :: conditions ++ [windowText period?]]

/-- The conditions are confined exactly when the filter is a single alternative and the window a single
condition. -/
theorem isConfined_iff {filter? period? : Option String} :
    IsConfined filter? period? ↔
      (∀ filter, filter? = some filter → ∃ conditions, alternatives? filter = some [conditions]) ∧
        alternatives? (windowText period?) = some [[windowText period?]] := by
  constructor
  · rintro ⟨conditions, hnone, hsome, hwhere⟩
    refine ⟨fun filter h => ⟨conditions, hsome filter h⟩, ?_⟩
    cases filter? with
    | none =>
        rw [hnone rfl, whereText_none, alternatives?_ownerCondition_and] at hwhere
        obtain ⟨read, hread, heq⟩ := Option.map_eq_some_iff.mp hwhere
        obtain ⟨a, as, rfl⟩ := exists_of_alternatives? hread
        rw [conjoin_singleton] at heq
        simp_all
    | some filter =>
        rw [alternatives?_whereText (hsome filter rfl)] at hwhere
        obtain ⟨joined, hjoined, heq⟩ := Option.map_eq_some_iff.mp hwhere
        obtain ⟨read, hread, rfl⟩ := Option.map_eq_some_iff.mp hjoined
        obtain ⟨a, as, rfl⟩ := exists_of_alternatives? hread
        rw [conjoin_singleton, conjoin_singleton] at heq
        simp_all
  · rintro ⟨hfilter, hwindow⟩
    cases filter? with
    | none =>
        refine ⟨[], fun _ => rfl, fun filter h => (by cases h), ?_⟩
        rw [whereText_none, alternatives?_ownerCondition_and, hwindow]
        rfl
    | some filter =>
        obtain ⟨conditions, hconditions⟩ := hfilter filter rfl
        refine ⟨conditions, fun h => (by cases h), fun other h => ?_, ?_⟩
        · cases h
          exact hconditions
        · rw [alternatives?_whereText hconditions, hwindow]
          rfl

/-- The words of the window for a period in which all quotes and parentheses are closed. -/
theorem words_windowText {period : String} (h : Closed period.toList) :
    Place.outside.words (windowText (some period)).toList =
      some ["t.created_at".toList, "BETWEEN".toList,
        "DATE_SUB(NOW(),".toList ++ (period.toList ++ ")".toList), "AND".toList, "NOW()".toList] := by
  have hend : (Place.outside.inside 1).words ") AND NOW()".toList =
      some [")".toList, "AND".toList, "NOW()".toList] := by decide
  have hperiod := Place.words_inside ") AND NOW()".toList h Nat.one_pos
  have hscan : Place.outside.scan "DATE_SUB(NOW(),".toList = some (Place.outside.inside 1) := by decide
  have hstart := Place.words_append_of_not_blank (period.toList ++ ") AND NOW()".toList) hscan
    (by decide)
  have hwords : Place.outside.words "t.created_at BETWEEN".toList =
      some ["t.created_at".toList, "BETWEEN".toList] := by decide
  have hsplit : (windowText (some period)).toList = "t.created_at BETWEEN".toList ++
      ' ' :: ("DATE_SUB(NOW(),".toList ++ (period.toList ++ ") AND NOW()".toList)) := by
    have hbetween : "t.created_at BETWEEN DATE_SUB(NOW(),".toList =
        "t.created_at BETWEEN".toList ++ ' ' :: "DATE_SUB(NOW(),".toList := by decide
    change ("t.created_at BETWEEN DATE_SUB(NOW()," ++ period ++ ") AND NOW()").toList = _
    rw [String.toList_append, String.toList_append, hbetween, List.append_assoc, List.append_assoc,
      List.cons_append]
  rw [hsplit, Place.words_append_blank hwords, hstart, hperiod, hend]
  simp only [Option.map_some, List.modifyHead_cons, List.cons_append, List.nil_append]

/-- A period in which all quotes and parentheses are closed leaves the window a single condition. -/
theorem alternatives?_windowText {period? : Option String}
    (h : ∀ period, period? = some period → Closed period.toList) :
    alternatives? (windowText period?) = some [[windowText period?]] := by
  cases period? with
  | none => rfl
  | some period =>
      have hwords := words_windowText (h period rfl)
      have hjoined := Place.intercalate_words hwords
      have hword (keyword : Word) (hkeyword : keyword.head? ≠ some 'D') :
          "DATE_SUB(NOW(),".toList ++ (period.toList ++ ")".toList) ≠ keyword :=
        fun heq => hkeyword (heq ▸ rfl)
      unfold alternatives?
      rw [hwords, Option.bind_some, clauses_word (by decide) (by decide) (by decide),
        clauses_between (hword _ (by decide)) (hword _ (by decide)) (hword _ (by decide)),
        clauses_word (by decide) (by decide) (by decide)]
      simp only [clauses, Bool.false_eq_true, if_false, Option.map_some, List.modifyHead_cons,
        List.map_cons, List.map_nil, List.cons_append, List.nil_append, hjoined]
      rw [String.ofList_toList]

end Aggregate

/-! ### Validated calls -/

namespace Engine

open Optimizer

variable {ω : Type} {engine : Engine ω} {name : String} {aggregate : Aggregate}
  {compiler : Sql.Compiler} {runner : QueryRunner ω}

/-- A call of a feature under its name with verbatim texts as arguments. -/
def textCall (weight : Weight) (name : String) (texts : List String) : Node :=
  .call weight (.identifier 1 name) (texts.map fun text => .ofValue (.string text) true)

/-- Arguments for which a feature has a compiler become verbatim texts. -/
theorem exists_texts {V : Type} {o : Optimizer V} {feature : StaticFeature V} {level : Nat}
    {compile : Node → Except RuleError String} {arguments : List Node} {xs : List (Reduced V)}
    (hcompile : feature.argumentCompiler? = some compile)
    (h : List.Forall₂ (o.ArgumentReduces feature level) arguments xs) :
    ∃ texts : List String,
      xs.map Reduced.node = texts.map (fun text => .ofValue (.string text) true) ∧
        List.Forall₂ (fun argument text => compile argument = .ok text) arguments texts := by
  induction h with
  | nil => exact ⟨[], rfl, .nil⟩
  | cons head tail ih =>
      obtain ⟨texts, hnodes, hcompiled⟩ := ih
      rw [ArgumentReduces, hcompile] at head
      obtain ⟨text, htext, -, hliteral⟩ := compiledArgument_eq_ok_iff.mp head
      obtain ⟨rendered, -, rfl⟩ := literal_eq_ok_iff.mp hliteral
      exact ⟨text :: texts, by rw [List.map_cons, List.map_cons, hnodes], .cons htext hcompiled⟩

/-- A call of an aggregate is validated to a call with the compiled texts of its arguments. -/
theorem Coherent.validate_aggregate (coherent : engine.Coherent)
    (registered : engine.evaluator.feature? name = some (aggregate.feature compiler runner))
    {w u : Weight} {arguments : List Node} {validated : Node}
    (h : engine.validate (.call w (.identifier u name) arguments) = .ok validated) :
    ∃ weight texts, validated = textCall weight name texts ∧
      List.Forall₂ (fun argument text => Sql.compileToSql compiler argument = .ok text)
        arguments texts ∧
      aggregate.checkArity texts.length = .ok () := by
  obtain ⟨r, hr, rfl⟩ := map_eq_ok_iff.mp h
  obtain ⟨-, x, hx, static, hstatic, xs, hxs, hcall⟩ := reduceAt_call_iff.mp hr
  have known : engine.optimizer.feature? name =
      some (aggregate.feature compiler runner).staticSide := by
    rw [coherent.feature?, registered]
    rfl
  have hcallee : x = ⟨.identifier 1 name, ⟨.one "function", 1, .feature name⟩⟩ := by
    rcases identifier_eq_ok (reduceAt_identifier_iff.mp hx).2 with
      ⟨feature, -, rfl⟩ | ⟨shape, hfree, -⟩
    · rfl
    · rw [known] at hfree
      cases hfree
  subst hcallee
  have heq : static = (aggregate.feature compiler runner).staticSide :=
    Option.some.inj (hstatic.symm.trans known)
  subst heq
  have hcompiler : (aggregate.feature compiler runner).staticSide.argumentCompiler? =
      some (Sql.compileToSql compiler) := rfl
  obtain ⟨texts, hnodes, hcompiled⟩ := exists_texts hcompiler hxs
  obtain ⟨description, described, ⟨value, hvalue, -⟩ | ⟨-, rfl⟩⟩ := call_eq_ok hcall
  · obtain ⟨inner, -, rfl⟩ := map_eq_ok_iff.mp described
    cases hvalue
  · refine ⟨_, texts, by rw [hnodes]; rfl, hcompiled, ?_⟩
    obtain ⟨inner, hinner, -⟩ := map_eq_ok_iff.mp described
    obtain ⟨_, harity, -⟩ := bind_eq_ok_iff.mp hinner
    rw [List.length_map] at harity
    rw [← hcompiled.length_eq, hxs.length_eq]
    exact harity

/-- A validated call of an aggregate executes the statement for its texts. -/
theorem valueOf_textCall
    (registered : engine.evaluator.feature? name = some (aggregate.feature compiler runner))
    {weight : Weight} {texts : List String} (harity : aggregate.checkArity texts.length = .ok ())
    (scope : Scope) :
    engine.valueOf scope (textCall weight name texts) =
      .mapError (.featureFailed name) (runner scope (aggregate.selectText texts ++
        Aggregate.whereText (aggregate.filterText? texts) (aggregate.periodText? texts))) := by
  have hcallee : engine.evaluator.callee? (.identifier 1 name) =
      some (name, aggregate.feature compiler runner) := by
    simp [Evaluator.callee?, Node.identifier?, registered]
  have hvalues : engine.evaluator.valuesOf scope
      (texts.map fun text => .ofValue (.string text) true) =
        (texts.map Value.string).map Computation.pure := by
    rw [Evaluator.valuesOf_eq_map, List.map_map, List.map_map]
    rfl
  unfold valueOf textCall
  rw [Evaluator.valueOf, hcallee, hvalues]
  dsimp only
  rw [Evaluator.gather_pure]
  change Computation.mapError _ ((aggregate.feature compiler runner).call scope _) = _
  dsimp only [Aggregate.feature]
  rw [Aggregate.statement_eq harity]

/-- A validated call of an aggregate executes a statement whose conditions are confined to the owner
exactly when the compiled filter, if there is one, is read as a single alternative, and the window
for the compiled period as a single condition. -/
theorem isConfined_validated_iff (reachable : engine.Reachable)
    (registered : engine.evaluator.feature? name = some (aggregate.feature compiler runner))
    {w u : Weight} {arguments : List Node} {validated : Node}
    (h : engine.validate (.call w (.identifier u name) arguments) = .ok validated) (scope : Scope) :
    ∃ texts, List.Forall₂ (fun argument text => Sql.compileToSql compiler argument = .ok text)
        arguments texts ∧
      engine.valueOf scope validated =
        .mapError (.featureFailed name) (runner scope (aggregate.selectText texts ++
          Aggregate.whereText (aggregate.filterText? texts) (aggregate.periodText? texts))) ∧
      (Aggregate.IsConfined (aggregate.filterText? texts) (aggregate.periodText? texts) ↔
        (∀ filter, aggregate.filterText? texts = some filter →
          ∃ conditions, Sql.alternatives? filter = some [conditions]) ∧
        Sql.alternatives? (Aggregate.windowText (aggregate.periodText? texts)) =
          some [[Aggregate.windowText (aggregate.periodText? texts)]]) := by
  obtain ⟨weight, texts, rfl, hcompiled, harity⟩ :=
    reachable.coherent.validate_aggregate registered h
  exact ⟨texts, hcompiled, valueOf_textCall registered harity scope, Aggregate.isConfined_iff⟩

end Engine

namespace Sample

/-- The past transactions from the country under review. -/
def sameCountry : Node :=
  .binary 0 .eq (memberOf "past" "country") (memberOf "trx" "country")

/-- The past transactions from one of two countries. -/
def oneOfTwoCountries : Node :=
  .logical 0 .or
    [.binary 0 .eq (memberOf "past" "country") (.ofValue (.string "DE") false),
      .binary 0 .eq (memberOf "past" "country") (.ofValue (.string "FR") false)]

/-- A count over the same country looks at no one else's transactions. -/
theorem isConfined_validated_sameCountry : ∃ validated,
    (engine (ω := Unit) statementText).validate
        (callOf "count" [sameCountry, .identifier 0 "lastMonth"]) = .ok validated ∧
      Aggregate.IsConfined (some "(t.country=:country)") (some "INTERVAL 30 DAY") := by
  have reachable : (engine (ω := Unit) statementText).Reachable :=
    (Engine.Reachable.new valueSchema).withTransactionFeatures compiler statementText
  have hvalidate : ∃ validated, (engine (ω := Unit) statementText).validate
      (callOf "count" [sameCountry, .identifier 0 "lastMonth"]) = .ok validated := ⟨_, rfl⟩
  obtain ⟨validated, hvalidated⟩ := hvalidate
  have registered : (engine (ω := Unit) statementText).evaluator.feature? "count" =
      some (Aggregate.count.feature compiler statementText) := rfl
  obtain ⟨texts, hcompiled, -, hiff⟩ :=
    Engine.isConfined_validated_iff reachable registered hvalidated scope
  have hfilter : Sql.compileToSql compiler sameCountry = .ok "(t.country=:country)" := rfl
  have hperiod : Sql.compileToSql compiler (.identifier 0 "lastMonth") = .ok "INTERVAL 30 DAY" := rfl
  have htexts : texts = ["(t.country=:country)", "INTERVAL 30 DAY"] := by
    cases hcompiled with
    | cons head tail =>
        cases tail with
        | cons next tail =>
            cases tail
            rw [hfilter] at head
            rw [hperiod] at next
            cases head
            cases next
            rfl
  subst htexts
  refine ⟨validated, hvalidated, hiff.mpr ⟨fun filter h => ?_, ?_⟩⟩
  · cases h
    exact ⟨["(t.country=:country)"], rfl⟩
  · exact Aggregate.alternatives?_windowText fun period h => by
      cases h
      decide

/-- A filter with two alternatives reaches the statement as it is, and the second one is not restricted
to the owner. -/
theorem not_isConfined_oneOfTwoCountries : ∃ validated,
    (engine (ω := Unit) statementText).validate (callOf "count" [oneOfTwoCountries]) = .ok validated ∧
      (((engine (ω := Unit) statementText).valueOf scope validated).run ()).1 =
        .ok (.string ("SELECT COUNT(t.id) FROM transactions AS t WHERE " ++
          "t.identity_id=:identityId AND (t.country='DE') OR (t.country='FR') AND t.created_at<=NOW()")) ∧
      Sql.alternatives?
          "t.identity_id=:identityId AND (t.country='DE') OR (t.country='FR') AND t.created_at<=NOW()" =
        some [["t.identity_id=:identityId", "(t.country='DE')"],
          ["(t.country='FR')", "t.created_at<=NOW()"]] ∧
      ¬ Aggregate.IsConfined (some "(t.country='DE') OR (t.country='FR')") none := by
  have hfilter : Sql.alternatives? "(t.country='DE') OR (t.country='FR')" =
      some [["(t.country='DE')"], ["(t.country='FR')"]] := by decide +kernel
  refine ⟨Engine.textCall (.ofNat 102) "count" ["(t.country='DE') OR (t.country='FR')"],
    rfl, rfl, ?_, ?_⟩
  · decide +kernel
  · rintro ⟨conditions, -, hsome, -⟩
    rw [hsome _ rfl] at hfilter
    cases hfilter

end Sample

end RuleLang
