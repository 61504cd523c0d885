import Mathlib.Algebra.Group.Nat.Even
import RuleLang.Feature.Classifier
import RuleLang.Proofs.Number.Signs
import RuleLang.Proofs.Sql.Token
import RuleLang.Proofs.Success
import RuleLang.Sql.Domain

/-!
# Comments in compiled text

In SQL two minus signs open a comment up to the end of the line, and a slash and an asterisk open one up to
its closing mark, if they stand outside of strings. This says of every form of compiled text when it holds
such a mark: a block comment never, and a line comment only where an operator or an operand brings it along.

* `Sql.OpensComment`: two characters stand side by side outside of strings.
* `Sql.Tidy`, `Sql.Operand`: texts that can stand next to others.
* `Sql.LineIff`, `Sql.Quiet`: such texts that open a line comment exactly under a condition, or never.
* `Sql.quiet_renderLiteral`, `Sql.quiet_renderElement`: literals are quiet.
* `Sql.lineIff_unary` to `Sql.lineIff_conditional`: the condition for what each kind of node writes.
-/

namespace RuleLang.Sql

/-! ### Marks -/

/-- Two characters stand side by side outside of strings. Inside of a string the number of quotes to the
left is odd. -/
def OpensComment (first second : Char) (cs : List Char) : Prop :=
  ∃ before after, cs = before ++ first :: second :: after ∧ Even (before.count '\'')

variable {first second : Char} {as bs cs : List Char}

/-- Marks of texts side by side are those of the texts, unless one arises in between. -/
theorem opensComment_append (paired : Even (as.count '\'')) (ends : as.getLast? ≠ some first) :
    OpensComment first second (as ++ bs) ↔
      OpensComment first second as ∨ OpensComment first second bs := by
  constructor
  · rintro ⟨before, after, heq, hbefore⟩
    rcases List.append_eq_append_iff.mp heq with ⟨rest, rfl, rfl⟩ | ⟨rest, rfl, hrest⟩
    · rw [List.count_append, Nat.even_add] at hbefore
      exact .inr ⟨rest, after, rfl, hbefore.mp paired⟩
    · rcases rest with _ | ⟨c, _ | ⟨d, rest⟩⟩
      · exact .inr ⟨[], after, hrest.symm, Even.zero⟩
      · obtain ⟨rfl, -⟩ := List.cons.inj hrest
        exact absurd List.getLast?_concat ends
      · rw [List.cons_append, List.cons_append] at hrest
        obtain ⟨rfl, htail⟩ := List.cons.inj hrest
        obtain ⟨rfl, -⟩ := List.cons.inj htail
        exact .inl ⟨before, rest, rfl, hbefore⟩
  · rintro (⟨before, after, rfl, hbefore⟩ | ⟨before, after, rfl, hbefore⟩)
    · exact ⟨before, after ++ bs, by simp, hbefore⟩
    · refine ⟨as ++ before, after, by simp, ?_⟩
      rw [List.count_append]
      exact paired.add hbefore

/-- A character in front of a text makes a mark with its first character. -/
theorem opensComment_cons {c : Char} (hc : c ≠ '\'') : OpensComment first second (c :: cs) ↔
    (c = first ∧ cs.head? = some second) ∨ OpensComment first second cs := by
  constructor
  · rintro ⟨before, after, heq, hbefore⟩
    cases before with
    | nil =>
        obtain ⟨rfl, rfl⟩ := List.cons.inj heq
        exact .inl ⟨rfl, rfl⟩
    | cons _ before =>
        rw [List.cons_append] at heq
        obtain ⟨rfl, rfl⟩ := List.cons.inj heq
        rw [List.count_cons_of_ne hc] at hbefore
        exact .inr ⟨before, after, rfl, hbefore⟩
  · rintro (⟨rfl, hhead⟩ | ⟨before, after, rfl, hbefore⟩)
    · obtain ⟨rest, rfl⟩ := List.head?_eq_some_iff.mp hhead
      exact ⟨[], rest, rfl, Even.zero⟩
    · refine ⟨c :: before, after, rfl, ?_⟩
      rwa [List.count_cons_of_ne hc]

/-- A text without the first character of a mark does not have the mark. -/
theorem not_opensComment_of_not_mem (h : first ∉ cs) : ¬ OpensComment first second cs := by
  rintro ⟨before, after, rfl, -⟩
  exact h (List.mem_append_right before List.mem_cons_self)

/-! ### Texts next to others -/

/-- A line comment opens in a text. -/
def OpensLine (sql : String) : Prop :=
  OpensComment '-' '-' sql.toList

/-- A text that can stand next to others: its quotes are paired, it does not end with a character that may
begin a mark, and it opens no block comment. -/
structure Tidy (cs : List Char) : Prop where
  paired : Even (cs.count '\'')
  ends : cs.getLast? ≠ some '-' ∧ cs.getLast? ≠ some '/'
  block : ¬ OpensComment '/' '*' cs

/-- A tidy text that can stand behind a slash. -/
structure Operand (cs : List Char) : Prop extends Tidy cs where
  begins : cs.head? ≠ some '*'

/-- Tidy texts are tidy together. -/
theorem Tidy.append (ha : Tidy as) (hb : Tidy bs) : Tidy (as ++ bs) where
  paired := by
    rw [List.count_append]
    exact ha.paired.add hb.paired
  ends := by
    rw [List.getLast?_append]
    cases h : bs.getLast? with
    | none => exact ha.ends
    | some c =>
        have hends := hb.ends
        rw [h] at hends
        exact hends
  block := by
    rw [opensComment_append ha.paired ha.ends.2]
    exact not_or_intro ha.block hb.block

/-- A tidy text that can stand behind a slash may be followed by another. -/
theorem Operand.append (ha : Operand as) (hb : Operand bs) : Operand (as ++ bs) where
  toTidy := ha.toTidy.append hb.toTidy
  begins := by
    rw [List.head?_append]
    cases h : as.head? with
    | none => exact hb.begins
    | some c =>
        have hbegins := ha.begins
        rw [h] at hbegins
        exact hbegins

/-- A text that is not empty protects what follows it. -/
theorem Operand.append_tidy (ha : Operand as) (hne : as ≠ []) (hb : Tidy bs) : Operand (as ++ bs) where
  toTidy := ha.toTidy.append hb
  begins := by
    rw [List.head?_append_of_ne_nil as hne]
    exact ha.begins

/-- One character in front of a text. -/
theorem Operand.cons {c : Char} (hc : c ≠ '\'') (h : Operand cs) (hne : cs ≠ []) : Tidy (c :: cs) where
  paired := by
    rw [List.count_cons_of_ne hc]
    exact h.paired
  ends := by
    rw [List.getLast?_cons_of_ne_nil hne]
    exact h.ends
  block := by
    rw [opensComment_cons hc]
    exact not_or_intro (fun hmark => h.begins hmark.2) h.block

/-- A text can stand next to others, and a line comment opens in it exactly under a condition. -/
structure LineIff (sql : String) (P : Prop) : Prop where
  operand : Operand sql.toList
  opensLine_iff : OpensLine sql ↔ P

/-- A text can stand next to others and opens no comment. -/
abbrev Quiet (sql : String) : Prop :=
  LineIff sql False

variable {a b sql : String} {P Q R : Prop}

/-- The condition may be put in other words. -/
theorem LineIff.of_iff (h : LineIff sql P) (hiff : P ↔ Q) : LineIff sql Q :=
  ⟨h.operand, h.opensLine_iff.trans hiff⟩

/-- In an operand a line comment opens exactly if it does. -/
theorem lineIff_of_operand (h : Operand sql.toList) : LineIff sql (OpensLine sql) :=
  ⟨h, Iff.rfl⟩

/-- In two texts a line comment opens if it does in one of them, and not between them. -/
theorem LineIff.append (ha : LineIff a P) (hb : LineIff b Q) : LineIff (a ++ b) (P ∨ Q) := by
  refine ⟨?_, ?_⟩
  · rw [String.toList_append]
    exact ha.operand.append hb.operand
  · rw [OpensLine, String.toList_append]
    refine (opensComment_append ha.operand.paired ha.operand.ends.1).trans ?_
    exact or_congr ha.opensLine_iff hb.opensLine_iff

/-- A quiet text in front of another one. -/
theorem LineIff.precede (hb : LineIff b P) (ha : Quiet a) : LineIff (a ++ b) P :=
  (ha.append hb).of_iff (or_iff_right not_false)

/-- A quiet text behind another one. -/
theorem LineIff.follow (ha : LineIff a P) (hb : Quiet b) : LineIff (a ++ b) P :=
  (ha.append hb).of_iff (or_iff_left not_false)

/-- A text between two quiet ones. -/
theorem LineIff.enclosed {left right : String} (h : LineIff sql P) (hleft : Quiet left)
    (hright : Quiet right) : LineIff (left ++ sql ++ right) P :=
  (h.precede hleft).follow hright

/-! ### Texts without comments -/

/-- A text without quotes and slashes and with at most one minus sign is quiet, if it neither begins nor
ends with half a mark. -/
theorem quiet_of_count (h : '\'' ∉ sql.toList ∧ '/' ∉ sql.toList ∧ sql.toList.count '-' < 2 ∧
    sql.toList.head? ≠ some '*' ∧ sql.toList.getLast? ≠ some '-') : Quiet sql := by
  obtain ⟨hquote, hslash, hminus, begins, ends⟩ := h
  refine ⟨⟨⟨?_, ⟨ends, ?_⟩, not_opensComment_of_not_mem hslash⟩, begins⟩, iff_false_intro ?_⟩
  · rw [List.count_eq_zero.mpr hquote]
    exact Even.zero
  · exact fun hlast => hslash (List.mem_of_getLast? hlast)
  · rintro ⟨before, after, heq, -⟩
    rw [heq, List.count_append, List.count_cons_self, List.count_cons_self] at hminus
    omega

/-- The characters of strings and marks. -/
def commentMarks : List Char := ['\'', '-', '/', '*']

/-- A text without such characters, as the names of columns and parameters are. -/
def MarkFree (sql : String) : Prop :=
  ∀ c ∈ sql.toList, c ∉ commentMarks

instance : DecidablePred MarkFree := fun sql =>
  decidable_of_iff (sql.toList.all (· ∉ commentMarks)) (by simp [MarkFree])

/-- A text without the characters of marks is quiet. -/
theorem quiet_of_markFree (h : MarkFree sql) : Quiet sql := by
  have unmarked (c : Char) (hc : c ∈ commentMarks) : c ∉ sql.toList := fun hmem => h c hmem hc
  refine quiet_of_count ⟨unmarked '\'' (by decide), unmarked '/' (by decide), ?_, ?_, ?_⟩
  · rw [List.count_eq_zero.mpr (unmarked '-' (by decide))]
    decide
  · exact fun hhead => unmarked '*' (by decide) (List.mem_of_head? hhead)
  · exact fun hlast => unmarked '-' (by decide) (List.mem_of_getLast? hlast)

/-! ### Literals -/

/-- The quotes in what is written for a content come in pairs. -/
theorem even_count_escape (s : List Char) : Even ((s.flatMap Text.sqlEscape).count '\'') := by
  induction s with
  | nil => exact Even.zero
  | cons c s ih =>
      rw [List.flatMap_cons, List.count_append]
      refine Even.add ?_ ih
      unfold Text.sqlEscape
      by_cases hc : c = '\''
      · rw [if_pos hc]
        decide
      · rw [if_neg hc, List.count_singleton, if_neg (by simpa using hc)]
        exact Even.zero

/-- In front of a character of the content that is no quote itself the quotes come in pairs. -/
theorem even_count_of_escape {s before rest : List Char} {c : Char} (hc : c ≠ '\'')
    (h : s.flatMap Text.sqlEscape ++ ['\''] = before ++ c :: rest) : Even (before.count '\'') := by
  induction s generalizing before with
  | nil =>
      cases before with
      | nil => exact absurd (List.cons.inj h).1.symm hc
      | cons _ before => cases before <;> cases (List.cons.inj h).2
  | cons d s ih =>
      rw [List.flatMap_cons, List.append_assoc, Text.sqlEscape] at h
      by_cases hd : d = '\''
      -- A quote of the content is written twice, and no other character stands between the two.
      · rw [if_pos hd] at h
        rcases before with _ | ⟨_, _ | ⟨_, before⟩⟩
        · exact absurd (List.cons.inj h).1.symm hc
        · exact absurd (List.cons.inj (List.cons.inj h).2).1.symm hc
        · obtain ⟨rfl, htail⟩ := List.cons.inj h
          obtain ⟨rfl, hrest⟩ := List.cons.inj htail
          rw [List.count_cons_self, List.count_cons_self]
          exact (ih hrest).add even_two
      · rw [if_neg hd] at h
        cases before with
        | nil => exact Even.zero
        | cons _ before =>
            obtain ⟨rfl, hrest⟩ := List.cons.inj h
            rw [List.count_cons_of_ne hd]
            exact ih hrest

/-- Whatever a string says, no mark opens in its quoted form. -/
theorem not_opensComment_sqlQuoted (s : String) (hfirst : first ≠ '\'') :
    ¬ OpensComment first second (Text.sqlQuoted s).toList := by
  rintro ⟨before, after, heq, hbefore⟩
  rw [toList_sqlQuoted] at heq
  cases before with
  | nil => exact absurd (List.cons.inj heq).1.symm hfirst
  | cons _ before =>
      obtain ⟨rfl, hrest⟩ := List.cons.inj heq
      rw [List.count_cons_self, Nat.even_add_one] at hbefore
      exact hbefore (even_count_of_escape hfirst hrest)

/-- A string opens no comment, whatever its content is. -/
theorem quiet_sqlQuoted (s : String) : Quiet (Text.sqlQuoted s) := by
  have hmark {first second : Char} (hfirst : first ≠ '\'') :
      ¬ OpensComment first second (Text.sqlQuoted s).toList := not_opensComment_sqlQuoted s hfirst
  refine ⟨⟨⟨?_, ?_, hmark (by decide)⟩, ?_⟩, iff_false_intro (hmark (by decide))⟩
  · rw [toList_sqlQuoted, List.count_cons_self, List.count_append]
    exact (even_count_escape s.toList).add even_two
  · rw [toList_sqlQuoted, ← List.cons_append, List.getLast?_concat]
    decide
  · rw [toList_sqlQuoted, List.head?_cons]
    decide

/-- The text of a number is quiet, since its minus signs stand apart. -/
theorem quiet_numberText (x : Float) : Quiet (Number.text x) := by
  have unmarked (c : Char) (hc : c ∉ Number.characters) : c ∉ (Number.text x).toList :=
    fun hmem => hc (Number.text_subset_characters x hmem)
  have apart := Number.signsApart_text x
  refine ⟨⟨⟨?_, ⟨?_, ?_⟩, not_opensComment_of_not_mem (unmarked '/' (by decide))⟩, ?_⟩,
    iff_false_intro ?_⟩
  · rw [List.count_eq_zero.mpr (unmarked '\'' (by decide))]
    exact Even.zero
  · intro hlast
    obtain ⟨before, hbefore⟩ := List.getLast?_eq_some_iff.mp hlast
    obtain ⟨c, hc, -⟩ := apart before [] hbefore
    cases hc
  · exact fun hlast => unmarked '/' (by decide) (List.mem_of_getLast? hlast)
  · exact fun hhead => unmarked '*' (by decide) (List.mem_of_head? hhead)
  · rintro ⟨before, after, heq, -⟩
    obtain ⟨c, hc, hne⟩ := apart before ('-' :: after) heq
    exact hne (Option.some.inj hc).symm

/-- The text of a scalar is quiet. -/
theorem quiet_scalar {value : Value} (h : scalar value = .ok sql) : Quiet sql := by
  cases value with
  | undefined | null =>
      cases h
      exact quiet_of_count (by decide)
  | bool b =>
      cases h
      cases b <;> exact quiet_of_count (by decide)
  | number x =>
      cases h
      exact quiet_sqlQuoted _
  | string s =>
      cases h
      exact quiet_sqlQuoted s
  | array items | object members => cases h

/-- The text of an item is quiet. -/
theorem quiet_listItem {value : Value} (h : listItem value = .ok sql) : Quiet sql := by
  unfold listItem at h
  split at h
  · cases h
    exact quiet_numberText _
  · exact quiet_scalar h

/-- A line comment opens in a row of texts where it does in one of them. -/
theorem lineIff_intercalate {between : String} (hbetween : Quiet between) {texts : List String}
    (h : ∀ text ∈ texts, Operand text.toList) :
    LineIff (between.intercalate texts) (∃ text ∈ texts, OpensLine text) := by
  induction texts with
  | nil => exact (quiet_of_count (by decide) : Quiet "").of_iff (by simp)
  | cons text rest ih =>
      rw [List.forall_mem_cons] at h
      have htext := lineIff_of_operand h.1
      cases rest with
      | nil => simpa using htext
      | cons next rest =>
          rw [String.intercalate_cons_cons]
          exact ((htext.follow hbetween).append (ih h.2)).of_iff (by simp)

/-- A list is written in parentheses. -/
theorem lineIff_list {items : List String} (h : ∀ item ∈ items, Operand item.toList) :
    LineIff (Fragment.list items).toSql (∃ item ∈ items, OpensLine item) := by
  have hitems := lineIff_intercalate (quiet_of_count (by decide) : Quiet ",") h
  exact hitems.enclosed (quiet_of_count (by decide)) (quiet_of_count (by decide))

/-- A list of quiet items is quiet. -/
theorem quiet_list {items : List String} (h : ∀ item ∈ items, Quiet item) :
    Quiet (Fragment.list items).toSql := by
  refine (lineIff_list fun item hitem => (h item hitem).operand).of_iff (iff_false_intro ?_)
  rintro ⟨item, hitem, hline⟩
  exact (h item hitem).opensLine_iff.mp hline

variable {f g result : Fragment} {value : Value}

/-- Literals open no comments. -/
theorem quiet_renderLiteral (h : renderLiteral value false = .ok f) : Quiet f.toSql := by
  unfold renderLiteral at h
  split at h
  · cases ‹false = true›
  · cases ‹false = true›
  · obtain ⟨items, hitems, rfl⟩ := map_eq_ok_iff.mp h
    refine quiet_list fun item hitem => ?_
    obtain ⟨part, -, hpart⟩ := exists_of_mem_forall₂ (mapM_eq_ok_iff.mp hitems) hitem
    exact quiet_listItem hpart
  · obtain ⟨sql, hsql, rfl⟩ := map_eq_ok_iff.mp h
    exact quiet_scalar hsql

/-- The text of an element is quiet. -/
theorem quiet_renderElement (h : renderElement value false = .ok f) : Quiet f.toSql := by
  unfold renderElement at h
  split at h
  · cases h
    exact quiet_numberText _
  · exact quiet_renderLiteral h

/-! ### Operators -/

/-- An operator in front of an operand opens no line comment of its own, as its operand stands in
parentheses. -/
theorem lineIff_unary (op : UnaryOp) (hf : LineIff f.toSql P) : LineIff (unary op f).toSql P := by
  refine hf.enclosed ?_ (quiet_of_count (by decide))
  cases op <;> exact quiet_of_count (by decide)

/-- A character between two texts makes a mark with the second one, if at all. -/
theorem lineIff_mark {between : String} {c : Char} (hbetween : between.toList = [c]) (hc : c ≠ '\'')
    (ha : LineIff a P) (hane : a.toList ≠ []) (hb : LineIff b Q) (hbne : b.toList ≠ []) :
    LineIff (a ++ between ++ b) (P ∨ Q ∨ c = '-' ∧ b.toList.head? = some '-') := by
  have htext : (a ++ between ++ b).toList = a.toList ++ c :: b.toList := by
    rw [String.toList_append, String.toList_append, hbetween, List.append_assoc, List.singleton_append]
  refine ⟨?_, ?_⟩
  · rw [htext]
    exact ha.operand.append_tidy hane (hb.operand.cons hc hbne)
  · rw [OpensLine, htext, opensComment_append ha.operand.paired ha.operand.ends.1, opensComment_cons hc]
    exact or_congr ha.opensLine_iff (or_comm.trans (or_congr_left hb.opensLine_iff))

/-- What is written between two operands is a character that may be half a mark, or quiet. -/
theorem infixText?_cases {op : BinaryOp} {between : String} (h : infixText? op = some between) :
    (∃ c, between.toList = [c] ∧ c ≠ '\'' ∧ (c = '-' ↔ op = .subtract)) ∨
      (Quiet between ∧ op ≠ .subtract) := by
  cases op with
  | multiply | divide | subtract =>
      cases h
      exact .inl ⟨_, rfl, by decide, by decide⟩
  | _ => cases h <;> exact .inr ⟨quiet_of_count (by decide), by decide⟩

/-- A subtraction of what begins with a minus sign opens a line comment. -/
theorem lineIff_infix {op : BinaryOp} {between : String} (h : infixText? op = some between)
    (ha : LineIff a P) (hb : LineIff b Q) :
    LineIff ("(" ++ a ++ between ++ b ++ ")")
      (P ∨ Q ∨ op = .subtract ∧ b.toList.head? = some '-') := by
  have hleft : LineIff ("(" ++ a) P := ha.precede (quiet_of_count (by decide))
  have hright : LineIff (b ++ ")") Q := hb.follow (quiet_of_count (by decide))
  have hhead : (b ++ ")").toList.head? = some '-' ↔ b.toList.head? = some '-' := by
    rw [String.toList_append, List.head?_append]
    cases b.toList.head? <;> simp
  have htext : "(" ++ a ++ between ++ b ++ ")" = "(" ++ a ++ between ++ (b ++ ")") :=
    String.append_assoc
  rw [htext]
  rcases infixText?_cases h with ⟨c, hbetween, hc, hop⟩ | ⟨hbetween, hop⟩
  · refine (lineIff_mark hbetween hc hleft (by simp) hright (by simp)).of_iff ?_
    rw [hop, hhead]
  · refine ((hleft.follow hbetween).append hright).of_iff ?_
    simp only [hop, false_and, or_false]

/-- The test for a member of a list opens a line comment only in its parts. -/
theorem lineIff_within {left : String} (ha : LineIff left P) (hg : LineIff g.toSql Q) :
    LineIff (within left g) (P ∨ Q) := by
  cases g with
  | text sql => exact (ha.follow (quiet_of_count (by decide))).append hg
  | list items =>
      have htext : within left (.list items) = left ++ " IN " ++ (Fragment.list items).toSql := by
        rw [← String.toList_inj]
        simp [within, Fragment.toSql]
      rw [htext]
      exact (ha.follow (quiet_of_count (by decide))).append hg

/-- Of the operators between two operands, only the subtraction makes a mark of its own. -/
theorem lineIff_binary {op : BinaryOp} (h : binary op f g = .ok result) (hf : LineIff f.toSql P)
    (hg : LineIff g.toSql Q) :
    LineIff result.toSql (P ∨ Q ∨ op = .subtract ∧ g.toSql.toList.head? = some '-') := by
  unfold binary at h
  split at h
  · cases h
    have hopened : LineIff ("POWER(" ++ f.toSql) P := hf.precede (quiet_of_count (by decide))
    have hoperands := (hopened.follow (quiet_of_count (by decide) : Quiet ",")).append hg
    exact (hoperands.follow (quiet_of_count (by decide))).of_iff (by simp)
  · cases h
    exact (lineIff_within hf hg).of_iff (by simp)
  · split at h
    · rename_i between hbetween
      cases h
      exact lineIff_infix hbetween hf hg
    · cases h

/-- To enclose a text opens no line comment. -/
theorem lineIff_enclose (h : LineIff sql P) : LineIff (enclose sql) P := by
  unfold enclose
  split
  · exact h
  · exact h.enclosed (quiet_of_count (by decide)) (quiet_of_count (by decide))

/-- A chain opens a line comment only in its operands. -/
theorem lineIff_logical (op : LogicalOp) {fs : List Fragment}
    (h : ∀ f ∈ fs, Operand f.toSql.toList) :
    LineIff (logical op fs).toSql (∃ f ∈ fs, OpensLine f.toSql) := by
  cases fs with
  | nil =>
      have hneutral : Quiet (logical op []).toSql := by cases op <;> exact quiet_of_count (by decide)
      exact hneutral.of_iff (by simp)
  | cons f rest =>
      cases rest with
      | nil => exact (lineIff_of_operand (h f List.mem_cons_self)).of_iff (by simp)
      | cons g rest =>
          have hseparator : Quiet (separator op) := by cases op <;> exact quiet_of_count (by decide)
          have henclosed (x : Fragment) (hx : x ∈ f :: g :: rest) :
              LineIff (enclose x.toSql) (OpensLine x.toSql) :=
            lineIff_enclose (lineIff_of_operand (h x hx))
          have hchain := lineIff_intercalate hseparator
            (List.forall_mem_map.mpr fun x hx => (henclosed x hx).operand)
          refine hchain.of_iff ?_
          simp only [List.mem_map, exists_exists_and_eq_and]
          exact exists_congr fun x => and_congr_right fun hx => (henclosed x hx).opensLine_iff

/-- A conditional opens a line comment only in its parts. -/
theorem lineIff_conditional {test : Fragment} (htest : LineIff test.toSql P) (hf : LineIff f.toSql Q)
    (hg : LineIff g.toSql R) : LineIff (conditional test f g).toSql (P ∨ Q ∨ R) := by
  have hwhen : LineIff ("CASE WHEN " ++ test.toSql) P := htest.precede (quiet_of_count (by decide))
  have hthen := (hwhen.follow (quiet_of_count (by decide) : Quiet " THEN ")).append hf
  have helse := (hthen.follow (quiet_of_count (by decide) : Quiet " ELSE ")).append hg
  exact (helse.follow (quiet_of_count (by decide))).of_iff or_assoc

/-- A list opens a line comment only in its items. -/
theorem lineIff_array {fs : List Fragment} (h : ∀ f ∈ fs, Operand f.toSql.toList) :
    LineIff (Fragment.list (fs.map Fragment.toSql)).toSql (∃ f ∈ fs, OpensLine f.toSql) :=
  (lineIff_list (List.forall_mem_map.mpr h)).of_iff (by simp)

/-- The test of a classifier is quiet if its column has no characters of marks. -/
theorem quiet_membership {classifier : Classifier} (h : MarkFree classifier.column) :
    Quiet classifier.membership := by
  have htypes : ∀ text ∈ classifier.types.map Text.sqlQuoted, Quiet text := by
    rw [List.forall_mem_map]
    exact fun type _ => quiet_sqlQuoted type
  have hwithin : classifier.membership =
      within classifier.column (.list (classifier.types.map Text.sqlQuoted)) := rfl
  rw [hwithin]
  exact (lineIff_within (quiet_of_markFree h) (quiet_list htypes)).of_iff (or_self_iff)

end RuleLang.Sql
