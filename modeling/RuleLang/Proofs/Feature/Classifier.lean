import RuleLang.Feature.Classifier
import RuleLang.Proofs.Sql.Compiled
import RuleLang.Proofs.Sql.Token
import RuleLang.Sample

/-!
# The two forms of a classifier

In SQL a classifier is a membership test over a list of strings. A reader that knows nothing of
classifiers takes the list out of the text again: the text is the column, ` IN (`, strings with commas
between them, and a parenthesis. It finds the list that evaluation tests against, whatever quotes, commas
and parentheses its items hold.

* `Sql.written_of_tokensFrom`: the tokens of a text determine the text.
* `Sql.readMembership?`: the list in a membership test, and `Sql.readMembership?_eq_some_iff`: the one text
  in which it is found.
* `Classifier.transactionType?_eq_some_iff`: when a scope has a type of the transaction.
* `Classifier.compileToSql_call`: the text of a call.
* `Classifier.forms_agree`: what the text lists and what evaluation accepts.
-/

namespace RuleLang

namespace Sql

variable {cs : List Char} {tokens : List Token} {items : List String}

/-! ### The text of tokens -/

/-- The characters of a token. -/
def Token.written : Token → List Char
  | .char c => [c]
  | .quoted content => (Text.sqlQuoted content).toList

/-- The characters of the string that a reading is in, as far as they were read. -/
def Reading.written : Reading → List Char
  | .outside => []
  | .inside content => '\'' :: content.flatMap Text.sqlEscape
  | .closing content => '\'' :: (content.flatMap Text.sqlEscape ++ ['\''])

/-- A quoted token is written as its content is closed. -/
theorem written_quoted (content : List Char) :
    (Token.quoted (String.ofList content)).written = (Reading.closing content).written := by
  rw [Token.written, toList_sqlQuoted, String.toList_ofList, Reading.written]

/-- What was read and what is left to read are the characters of the tokens. -/
theorem written_of_tokensFrom {reading : Reading} (h : tokensFrom reading cs = some tokens) :
    reading.written ++ cs = tokens.flatMap Token.written := by
  induction cs generalizing reading tokens with
  | nil =>
      cases reading with
      | outside =>
          cases h
          rfl
      | inside content => cases h
      | closing content =>
          cases h
          rw [List.flatMap_singleton, written_quoted, List.append_nil]
  | cons c rest ih =>
      cases reading with
      | outside =>
          rw [tokensFrom] at h
          split at h
          · rename_i hc
            rw [← ih h, hc]
            rfl
          · obtain ⟨others, hothers, rfl⟩ := Option.map_eq_some_iff.mp h
            rw [List.flatMap_cons, ← ih hothers]
            rfl
      | inside content =>
          rw [tokensFrom] at h
          split at h
          · rename_i hc
            rw [← ih h, hc]
            simp [Reading.written]
          · rename_i hc
            rw [← ih h]
            simp [Reading.written, Text.sqlEscape, hc]
      | closing content =>
          rw [tokensFrom] at h
          split at h
          · rename_i hc
            rw [← ih h, hc]
            simp [Reading.written, Text.sqlEscape]
          · obtain ⟨others, hothers, rfl⟩ := Option.map_eq_some_iff.mp h
            rw [List.flatMap_cons, List.flatMap_cons, ← ih hothers, written_quoted]
            rfl

/-! ### Lists of strings -/

/-- The strings with commas between them in front of the parenthesis that ends a list. -/
def stringItems? : List Token → Option (List String)
  | [.quoted s, .char ')'] => some [s]
  | .quoted s :: .char ',' :: rest => (stringItems? rest).map (s :: ·)
  | _ => none

/-- The strings of a list up to its parenthesis. -/
def stringList? : List Token → Option (List String)
  | [.char ')'] => some []
  | tokens => stringItems? tokens

/-- The list in a membership test on a column. -/
def readMembership? (column sql : String) : Option (List String) :=
  (sql.toList.dropPrefix? (column ++ " IN (").toList).bind fun rest =>
    (tokensFrom .outside rest).bind stringList?

/-- The tokens of a list of strings. -/
def listTokens : List String → List Token
  | [] => [.char ')']
  | [s] => [.quoted s, .char ')']
  | s :: next :: rest => .quoted s :: .char ',' :: listTokens (next :: rest)

/-- Items are read from the tokens of a list of at least one string. -/
theorem stringItems?_eq_some_iff :
    stringItems? tokens = some items ↔ items ≠ [] ∧ tokens = listTokens items := by
  constructor
  · intro h
    induction tokens using stringItems?.induct generalizing items with
    | case1 s =>
        cases h
        exact ⟨List.cons_ne_nil _ _, rfl⟩
    | case2 s rest ih =>
        rw [stringItems?] at h
        · obtain ⟨others, hothers, rfl⟩ := Option.map_eq_some_iff.mp h
          obtain ⟨hne, rfl⟩ := ih hothers
          cases others with
          | nil => exact absurd rfl hne
          | cons next others => exact ⟨List.cons_ne_nil _ _, rfl⟩
    | case3 tokens hsingle hcons =>
        rw [stringItems?] at h
        · cases h
        · exact hsingle
        · exact hcons
  · rintro ⟨hne, rfl⟩
    induction items using listTokens.induct with
    | case1 => exact absurd rfl hne
    | case2 s => rfl
    | case3 s next rest ih =>
        rw [listTokens, stringItems?, ih (List.cons_ne_nil _ _), Option.map_some]

/-- A list of strings is read from its tokens. -/
theorem stringList?_eq_some_iff : stringList? tokens = some items ↔ tokens = listTokens items := by
  rw [stringList?.eq_def]
  split
  · cases items with
    | nil => exact iff_of_true rfl rfl
    | cons s rest => cases rest <;> simp [listTokens]
  · rename_i hempty
    rw [stringItems?_eq_some_iff, and_iff_right_iff_imp]
    rintro htokens rfl
    exact hempty htokens

/-- The tokens of a list are written as its quoted items with commas between them. -/
theorem flatMap_written_listTokens (items : List String) :
    (listTokens items).flatMap Token.written =
      (",".intercalate (items.map Text.sqlQuoted) ++ ")").toList := by
  induction items using listTokens.induct with
  | case1 => rfl
  | case2 s => simp [listTokens, Token.written]
  | case3 s next rest ih =>
      rw [listTokens, List.flatMap_cons, List.flatMap_cons, ih]
      simp [Token.written, String.intercalate_cons_cons]

/-- The tokens of a list are read back from what they are written as. -/
theorem tokensFrom_listTokens (items : List String) :
    tokensFrom .outside ((listTokens items).flatMap Token.written) = some (listTokens items) := by
  induction items using listTokens.induct with
  | case1 => rfl
  | case2 s =>
      rw [listTokens, List.flatMap_cons, Token.written, tokensFrom_sqlQuoted s (by decide)]
      rfl
  | case3 s next rest ih =>
      have hcomma : tokensFrom .outside (',' :: (listTokens (next :: rest)).flatMap Token.written) =
          some (.char ',' :: listTokens (next :: rest)) := by
        rw [tokensFrom, if_neg (by decide), ih, Option.map_some]
      rw [listTokens, List.flatMap_cons, List.flatMap_cons, Token.written, Token.written,
        List.singleton_append, tokensFrom_sqlQuoted s (by simp), hcomma, Option.map_some]

/-- A list is found in one text only, in which its strings stand in quotes between commas. -/
theorem readMembership?_eq_some_iff {column sql : String} :
    readMembership? column sql = some items ↔
      sql = column ++ " IN (" ++ ",".intercalate (items.map Text.sqlQuoted) ++ ")" := by
  have htokens {rest : List Char} :
      (tokensFrom .outside rest).bind stringList? = some items ↔
        rest = (listTokens items).flatMap Token.written := by
    rw [Option.bind_eq_some_iff]
    constructor
    · rintro ⟨tokens, htokens, hitems⟩
      rw [← stringList?_eq_some_iff.mp hitems, ← written_of_tokensFrom htokens]
      rfl
    · rintro rfl
      exact ⟨_, tokensFrom_listTokens items, stringList?_eq_some_iff.mpr rfl⟩
  rw [readMembership?, Option.bind_eq_some_iff]
  simp only [htokens, exists_eq_right, List.dropPrefix?_eq_some_iff, beq_iff_eq]
  rw [flatMap_written_listTokens, String.append_assoc, ← String.toList_inj, ← String.toList_append]

end Sql

namespace Classifier

variable {classifier : Classifier} {scope : Scope} {kind : String}

/-! ### The type of a transaction -/

/-- The transaction in a scope is an object whose type is this text. -/
def TypeIs (scope : Scope) (kind : String) : Prop :=
  ∃ members, scope.get? "trx" = some (.object members) ∧
    Members.find? "type" members = some (.string kind)

/-- The type of the transaction is read where the scope has it. -/
theorem transactionType?_eq_some_iff : transactionType? scope = some kind ↔ TypeIs scope kind := by
  have hposition : (Segment.key "type").position? = none := by decide
  rw [transactionType?, Option.bind_eq_some_iff, TypeIs]
  constructor
  · rintro ⟨type, htype, hkind⟩
    obtain ⟨trx, htrx, htype⟩ := Option.bind_eq_some_iff.mp htype
    cases trx with
    | object members =>
        refine ⟨members, htrx, ?_⟩
        cases type with
        | string s =>
            cases hkind
            exact htype
        | _ => cases hkind
    | array items =>
        rw [Value.get?, hposition] at htype
        cases htype
    | _ => cases htype
  · rintro ⟨members, htrx, htype⟩
    refine ⟨.string kind, ?_, rfl⟩
    rw [htrx]
    exact htype

/-- A classifier answers whether the type is one of its own. -/
theorem call_of_typeIs {ω : Type} (h : TypeIs scope kind) (arguments : List Value) :
    classifier.feature.call scope arguments =
      (.pure (.bool (decide (kind ∈ classifier.types))) : Computation ω RuleError Value) := by
  simp only [feature]
  rw [transactionType?_eq_some_iff.mpr h, Option.any_some, accepts, List.contains_eq_mem]

/-- A classifier answers with false where there is no type. -/
theorem call_of_not_typeIs {ω : Type} (h : ¬ ∃ kind, TypeIs scope kind) (arguments : List Value) :
    classifier.feature.call scope arguments =
      (.pure (.bool false) : Computation ω RuleError Value) := by
  have hnone : transactionType? scope = none :=
    Option.eq_none_iff_forall_ne_some.mpr fun kind hkind => h ⟨kind, transactionType?_eq_some_iff.mp hkind⟩
  simp only [feature, hnone, Option.any_none]

/-! ### The two forms -/

variable {compiler : Sql.Compiler} {name : String}

/-- A call compiles to the membership test. -/
theorem compileToSql_call (hdomain : compiler.domain = Sql.domain)
    (hdepth : 1 ≤ compiler.config.maxDepth)
    (registered : compiler.feature? name = some classifier.sqlFeature) (w u : Weight) :
    Sql.compileToSql compiler (.call w (.identifier u name) []) = .ok classifier.membership := by
  refine Sql.compileToSql_eq_ok_iff.mpr ⟨Sql.compiled classifier.membership, ?_, rfl⟩
  have hcallee : compiler.identifier name =
      .ok ⟨.identifier 1 name, ⟨.one "function", 1, .feature name⟩⟩ := by
    rw [Optimizer.identifier, registered]
  refine Optimizer.reduceAt_call_iff.mpr ⟨Nat.zero_le _, _,
    Optimizer.reduceAt_identifier_iff.mpr ⟨hdepth, hcallee⟩, classifier.sqlFeature, registered, [],
    .nil, ?_⟩
  exact Sql.fold_text hdomain

/-- Whatever its types and its column, a call of a classifier compiles to a text in which a reader of
membership tests finds just these types. Evaluation of the call answers whether the type of the transaction
is among them, and answers false where the scope has no transaction that is an object with a text as its
type. -/
theorem forms_agree {ω : Type} (hdomain : compiler.domain = Sql.domain)
    (hdepth : 1 ≤ compiler.config.maxDepth)
    (registered : compiler.feature? name = some classifier.sqlFeature) (w u : Weight) :
    ∃ sql, Sql.compileToSql compiler (.call w (.identifier u name) []) = .ok sql ∧
      Sql.readMembership? classifier.column sql = some classifier.types ∧
      ∀ (scope : Scope) (arguments : List Value),
        (∀ kind, TypeIs scope kind →
          (kind ∈ classifier.types ↔
            classifier.feature.call scope arguments =
              (.pure (.bool true) : Computation ω RuleError Value))) ∧
        ((¬ ∃ kind, TypeIs scope kind) →
          classifier.feature.call scope arguments =
            (.pure (.bool false) : Computation ω RuleError Value)) := by
  refine ⟨classifier.membership, compileToSql_call hdomain hdepth registered w u,
    Sql.readMembership?_eq_some_iff.mpr rfl, fun scope arguments => ⟨fun kind h => ?_, fun h =>
      call_of_not_typeIs h arguments⟩⟩
  rw [call_of_typeIs h]
  simp only [Computation.pure, Computation.finished.injEq, Except.ok.injEq, Value.bool.injEq,
    decide_eq_true_iff]

end Classifier

namespace Sample

/-- A classifier whose column and types hold the characters that separate them in SQL. -/
def separators : Classifier :=
  ⟨"isSeparator", ["a'b", "x','y", ")", ""], "t.'kind' IN ("⟩

/-- The forms agree on types that hold the characters which separate items in SQL. -/
theorem forms_agree_separators :
    ∃ sql, Sql.compileToSql (compiler.addFeature "isSeparator" separators.sqlFeature)
        (callOf "isSeparator" []) = .ok sql ∧
      Sql.readMembership? "t.'kind' IN (" sql = some ["a'b", "x','y", ")", ""] ∧
      separators.feature.call (Scope.empty.bind "trx" (.object [("type", .string "x','y")])) [] =
        (.pure (.bool true) : Computation Unit RuleError Value) ∧
      separators.feature.call Scope.empty [] =
        (.pure (.bool false) : Computation Unit RuleError Value) := by
  have registered : (compiler.addFeature "isSeparator" separators.sqlFeature).feature? "isSeparator" =
      some separators.sqlFeature := Members.find?_insert_self _ _ _
  obtain ⟨sql, hsql, hlist, hcall⟩ :=
    Classifier.forms_agree (ω := Unit) (rfl : _ = Sql.domain) (by decide) registered 0 0
  refine ⟨sql, hsql, hlist, ?_, (hcall _ _).2 fun ⟨kind, members, htrx, _⟩ => nomatch htrx⟩
  exact ((hcall _ _).1 "x','y" ⟨[("type", .string "x','y")], rfl, rfl⟩).mp (by decide)

end Sample

end RuleLang
