import RuleLang.Feature.Classifier
import RuleLang.Proofs.Number.Characters
import RuleLang.Proofs.Sql.Place
import RuleLang.Proofs.Sql.Token
import RuleLang.Proofs.Success
import RuleLang.Sql.Domain

/-!
# Closed texts

A text that stands in another one leaves the place of what follows it alone when all its quotes and
parentheses are closed. Strings are closed whatever their contents are, and every operator makes closed
texts of closed texts.

* `Sql.Closed.append`, `Sql.Closed.enclosed`: closed texts side by side and in parentheses.
* `Sql.closed_sqlQuoted`: a string is closed.
* `Sql.closed_renderLiteral`, `Sql.closed_renderElement`: literals are.
* `Sql.closed_unary` to `Sql.closed_conditional`: operators on closed fragments.
-/

namespace RuleLang.Sql

/-! ### Texts side by side and in parentheses -/

/-- The characters that change the place in a text. -/
def enclosers : List Char := ['\'', '(', ')']

namespace Place

/-- A text is gone through part by part. -/
theorem scan_append (p : Place) (as bs : List Char) :
    p.scan (as ++ bs) = (p.scan as).bind fun q => q.scan bs :=
  List.foldlM_append

/-- A text without parentheses and quotes ends where it begins. -/
theorem scan_of_unmarked {p : Place} {cs : List Char} (h : ∀ c ∈ cs, c ∉ enclosers) :
    p.scan cs = some p := by
  induction cs with
  | nil => rfl
  | cons c cs ih =>
      rw [List.forall_mem_cons] at h
      have hstep : p.step c = some p := by
        have hmarks := h.1
        simp only [enclosers, List.mem_cons, List.not_mem_nil, or_false, not_or] at hmarks
        simp [step, hmarks]
      rw [scan_cons, hstep, Option.bind_some]
      exact ih h.2

/-- A text goes on inside parentheses as it does outside. -/
theorem scan_inside {p q : Place} {cs : List Char} (depth : Nat) (h : p.scan cs = some q) :
    (p.inside depth).scan cs = some (q.inside depth) := by
  induction cs generalizing p with
  | nil =>
      cases h
      rfl
  | cons c cs ih =>
      obtain ⟨next, hnext, h⟩ := Option.bind_eq_some_iff.mp h
      rw [scan_cons, step_inside depth hnext, Option.bind_some]
      exact ih h

end Place

open Place

variable {as bs : List Char}

/-- Closed texts are closed together. -/
theorem Closed.append (ha : Closed as) (hb : Closed bs) : Closed (as ++ bs) := by
  rw [Closed, scan_append, ha, Option.bind_some]
  exact hb

/-- A text without parentheses and quotes is closed. -/
theorem closed_of_unmarked (h : ∀ c ∈ as, c ∉ enclosers) : Closed as :=
  scan_of_unmarked h

/-- An opening parenthesis leads one level inside. -/
theorem step_open : outside.step '(' = some (outside.inside 1) := rfl

/-- A closed text in parentheses is closed. -/
theorem Closed.enclosed (h : Closed as) : Closed ('(' :: as ++ [')']) := by
  have hinside : (outside.inside 1).scan as = some (outside.inside 1) := scan_inside 1 h
  rw [Closed, List.cons_append, scan_cons, step_open, Option.bind_some, scan_append, hinside]
  rfl

/-- No closed text but the empty one begins a closed text in parentheses without being all of it. -/
theorem Closed.eq_nil_of_enclosed {before after : List Char} {c : Char} (h : Closed as)
    (heq : '(' :: as ++ [')'] = before ++ c :: after) (hbefore : Closed before) : before = [] := by
  cases before with
  | nil => rfl
  | cons first before =>
      obtain ⟨rfl, htail⟩ := List.cons.inj heq
      have hstarts : before <+: as := by
        have hall : before <+: as ++ [')'] := ⟨c :: after, htail.symm⟩
        rcases List.prefix_concat_iff.mp hall with rfl | hstarts
        · have hlength := congrArg List.length htail
          simp at hlength
        · exact hstarts
      obtain ⟨rest, rfl⟩ := hstarts
      rw [Closed, scan_append] at h
      obtain ⟨q, hq, -⟩ := Option.bind_eq_some_iff.mp h
      have hinside : (outside.inside 1).scan before = some (q.inside 1) := scan_inside 1 hq
      rw [Closed, scan_cons, step_open, Option.bind_some, hinside] at hbefore
      have hdepth : q.depth + 1 = 0 := congrArg Place.depth (Option.some.inj hbefore)
      omega

variable {a b : String}

/-- Closed texts are closed together. -/
theorem closed_append (ha : Closed a.toList) (hb : Closed b.toList) : Closed (a ++ b).toList := by
  rw [String.toList_append]
  exact ha.append hb

/-- A closed text between two others. -/
theorem closed_join {between : String} (ha : Closed a.toList) (hbetween : Closed between.toList)
    (hb : Closed b.toList) : Closed (a ++ between ++ b).toList :=
  closed_append (closed_append ha hbetween) hb

/-- A closed text is closed in parentheses. -/
theorem closed_parenthesised (ha : Closed a.toList) : Closed ("(" ++ a ++ ")").toList := by
  simpa using ha.enclosed

/-- A closed text in parentheses after a word or a sign. -/
theorem closed_applied {front : String} (hfront : Closed front.toList) (ha : Closed a.toList) :
    Closed (front ++ "(" ++ a ++ ")").toList := by
  simpa using hfront.append ha.enclosed

/-- A closed text stays closed when it is enclosed. -/
theorem closed_enclose {sql : String} (h : Closed sql.toList) : Closed (enclose sql).toList := by
  unfold enclose
  split
  · exact h
  · exact closed_parenthesised h

/-- Closed texts are closed with a closed text between them. -/
theorem closed_intercalate {between : String} {texts : List String} (hbetween : Closed between.toList)
    (h : ∀ text ∈ texts, Closed text.toList) : Closed (between.intercalate texts).toList := by
  induction texts with
  | nil => rfl
  | cons text rest ih =>
      rw [List.forall_mem_cons] at h
      cases rest with
      | nil => simpa using h.1
      | cons next rest =>
          rw [String.intercalate_cons_cons]
          exact closed_join h.1 hbetween (ih h.2)

/-! ### Literals -/

/-- Inside quotes, what is written for a content stays inside: a quote is written twice, so that the
second one undoes the first. -/
theorem scan_escape (depth : Nat) (s : List Char) :
    (Place.mk depth true).scan (s.flatMap Text.sqlEscape) = some ⟨depth, true⟩ := by
  induction s with
  | nil => rfl
  | cons c s ih =>
      have hescape : (Place.mk depth true).scan (Text.sqlEscape c) = some ⟨depth, true⟩ := by
        unfold Text.sqlEscape
        by_cases hc : c = '\''
        · rw [if_pos hc]
          rfl
        · rw [if_neg hc, scan_cons, step, if_neg hc]
          rfl
      rw [List.flatMap_cons, scan_append, hescape, Option.bind_some, ih]

/-- A string is closed, whatever its content is. -/
theorem closed_sqlQuoted (s : String) : Closed (Text.sqlQuoted s).toList := by
  have hopen : outside.step '\'' = some ⟨0, true⟩ := rfl
  rw [toList_sqlQuoted, Closed, scan_cons, hopen, Option.bind_some, scan_append, scan_escape]
  rfl

/-- The text of a number is closed. -/
theorem closed_numberText (x : Float) : Closed (Number.text x).toList := by
  have hmarks : Number.characters.all (· ∉ enclosers) := by decide
  refine closed_of_unmarked fun c hc => ?_
  exact of_decide_eq_true (List.all_eq_true.mp hmarks c (Number.text_subset_characters x hc))

/-- The text of a scalar is closed. -/
theorem closed_scalar {value : Value} {sql : String} (h : scalar value = .ok sql) :
    Closed sql.toList := by
  cases value with
  | undefined | null =>
      cases h
      decide
  | bool b =>
      cases h
      cases b <;> decide
  | number x =>
      cases h
      exact closed_sqlQuoted _
  | string s =>
      cases h
      exact closed_sqlQuoted s
  | array items | object members => cases h

/-- The text of an item is closed. -/
theorem closed_listItem {value : Value} {sql : String} (h : listItem value = .ok sql) :
    Closed sql.toList := by
  unfold listItem at h
  split at h
  · cases h
    exact closed_numberText _
  · exact closed_scalar h

/-- A list of closed items is closed. -/
theorem closed_list {items : List String} (h : ∀ item ∈ items, Closed item.toList) :
    Closed (Fragment.list items).toSql.toList :=
  closed_parenthesised (closed_intercalate (by decide) h)

variable {f g result : Fragment} {value : Value}

/-- The text of a literal is closed. -/
theorem closed_renderLiteral (h : renderLiteral value false = .ok f) : Closed f.toSql.toList := by
  unfold renderLiteral at h
  split at h
  · cases ‹false = true›
  · cases ‹false = true›
  · obtain ⟨items, hitems, rfl⟩ := map_eq_ok_iff.mp h
    refine closed_list fun item hitem => ?_
    obtain ⟨part, -, hpart⟩ := exists_of_mem_forall₂ (mapM_eq_ok_iff.mp hitems) hitem
    exact closed_listItem hpart
  · obtain ⟨sql, hsql, rfl⟩ := map_eq_ok_iff.mp h
    exact closed_scalar hsql

/-- The text of an element is closed. -/
theorem closed_renderElement (h : renderElement value false = .ok f) : Closed f.toSql.toList := by
  unfold renderElement at h
  split at h
  · cases h
    exact closed_numberText _
  · exact closed_renderLiteral h

/-! ### Operators -/

/-- An operator in front of a closed text is closed. -/
theorem closed_unary (op : UnaryOp) (hf : Closed f.toSql.toList) : Closed (unary op f).toSql.toList := by
  cases op <;> exact closed_applied (by decide) hf

/-- The test for a member of a list is closed if its parts are. -/
theorem closed_within {left : String} (hleft : Closed left.toList) (hf : Closed f.toSql.toList) :
    Closed (within left f).toList := by
  cases f with
  | text sql => exact closed_join hleft (by decide) hf
  | list items =>
      have hjoined := closed_join hleft (by decide : Closed " IN ".toList) hf
      simpa [within, Fragment.toSql, String.append_assoc] using hjoined

/-- No operator leaves a quote or a parenthesis open. -/
theorem closed_binary {op : BinaryOp} (h : binary op f g = .ok result) (hf : Closed f.toSql.toList)
    (hg : Closed g.toSql.toList) : Closed result.toSql.toList := by
  unfold binary at h
  split at h
  · cases h
    have hoperands := closed_join hf (by decide : Closed ",".toList) hg
    have hcall := closed_applied (by decide : Closed "POWER".toList) hoperands
    simpa [Fragment.toSql, String.append_assoc] using hcall
  · cases h
    exact closed_within hf hg
  · split at h
    · rename_i between hbetween
      cases h
      have hclosed : Closed between.toList := by cases op <;> cases hbetween <;> decide
      have hoperands := closed_parenthesised (closed_join hf hclosed hg)
      simpa [Fragment.toSql, String.append_assoc] using hoperands
    · cases h

/-- A chain of closed texts is closed. -/
theorem closed_logical (op : LogicalOp) {fs : List Fragment}
    (h : ∀ f ∈ fs, Closed f.toSql.toList) : Closed (logical op fs).toSql.toList := by
  cases fs with
  | nil => cases op <;> decide
  | cons f rest =>
      cases rest with
      | nil => exact h f List.mem_cons_self
      | cons g rest =>
          have hseparator : Closed (separator op).toList := by cases op <;> decide
          refine closed_intercalate hseparator ?_
          rw [List.forall_mem_map]
          exact fun operand hoperand => closed_enclose (h operand hoperand)

/-- A conditional of closed texts is closed. -/
theorem closed_conditional {test : Fragment} (htest : Closed test.toSql.toList)
    (hf : Closed f.toSql.toList) (hg : Closed g.toSql.toList) :
    Closed (conditional test f g).toSql.toList := by
  have hwhen : Closed ("CASE WHEN " ++ test.toSql).toList := closed_append (by decide) htest
  have hthen := closed_join hwhen (by decide : Closed " THEN ".toList) hf
  have helse := closed_join hthen (by decide : Closed " ELSE ".toList) hg
  exact closed_append helse (by decide)

/-- The test of a classifier is closed if its column is. -/
theorem closed_membership {classifier : Classifier} (h : Closed classifier.column.toList) :
    Closed classifier.membership.toList := by
  have htypes : ∀ text ∈ classifier.types.map Text.sqlQuoted, Closed text.toList := by
    rw [List.forall_mem_map]
    exact fun type _ => closed_sqlQuoted type
  have hwithin : classifier.membership =
      within classifier.column (.list (classifier.types.map Text.sqlQuoted)) := rfl
  rw [hwithin]
  exact closed_within h (closed_list htypes)

end RuleLang.Sql
