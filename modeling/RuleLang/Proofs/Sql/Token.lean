import Mathlib.Data.List.Forall2
import RuleLang.Sql.Fragment
import RuleLang.Text.Quoted

/-!
# Tokens of SQL texts

A SQL text is read as strings between single quotes, in which a quote is written twice, and single
characters around them. Texts that differ only in the contents of their strings have the same tokens but
for these contents, and no test of a text tells them apart.

* `Sql.tokens?`: the tokens of a text; a text that ends inside a string has none.
* `Sql.Similar`: texts that differ only in the contents of their strings.
* `Sql.Similar.exists_tokens`: the tokens of similar texts.
* `Sql.Similar.enclose`: parentheses are put around both of two similar texts or around neither.
-/

namespace RuleLang.Sql

/-- One token of a SQL text. -/
inductive Token where
  | char (c : Char)
  /-- A string, without the quotes around it and with every doubled quote read as one. -/
  | quoted (content : String)
  deriving DecidableEq

/-- Where the reading of a text stands. -/
inductive Reading where
  | outside
  /-- Inside a string, of which this much was read. -/
  | inside (content : List Char)
  /-- After a quote inside a string, which ends the string unless another quote follows. -/
  | closing (content : List Char)

/-- The tokens of the rest of a text. -/
def tokensFrom : Reading → List Char → Option (List Token)
  | .outside, [] => some []
  | .inside _, [] => none
  | .closing content, [] => some [.quoted (String.ofList content)]
  | .outside, c :: rest =>
    if c = '\'' then tokensFrom (.inside []) rest
    else (tokensFrom .outside rest).map (.char c :: ·)
  | .inside content, c :: rest =>
    if c = '\'' then tokensFrom (.closing content) rest
    else tokensFrom (.inside (content ++ [c])) rest
  | .closing content, c :: rest =>
    if c = '\'' then tokensFrom (.inside (content ++ ['\''])) rest
    else (tokensFrom .outside rest).map fun tokens =>
      .quoted (String.ofList content) :: .char c :: tokens

/-- The tokens of a text; a text that ends inside a string has none. -/
def tokens? (sql : String) : Option (List Token) :=
  tokensFrom .outside sql.toList

/-- Tokens that are equal, or strings with related contents. -/
inductive Token.Similar (R : String → String → Prop) : Token → Token → Prop
  | same (token : Token) : Similar R token token
  | strings {s t : String} (h : R s t) : Similar R (.quoted s) (.quoted t)

/-! ### Reading a string -/

/-- A quoted text is its escaped characters between quotes. -/
theorem toList_sqlQuoted (s : String) :
    (Text.sqlQuoted s).toList = '\'' :: (s.toList.flatMap Text.sqlEscape ++ ['\'']) := by
  rw [Text.sqlQuoted, String.toList_ofList, List.cons_append]

/-- What is written for a content is read back as that content. -/
theorem tokensFrom_inside_escape (content s rest : List Char) :
    tokensFrom (.inside content) (s.flatMap Text.sqlEscape ++ rest) =
      tokensFrom (.inside (content ++ s)) rest := by
  induction s generalizing content with
  | nil => rw [List.flatMap_nil, List.nil_append, List.append_nil]
  | cons c s ih =>
      rw [List.flatMap_cons, List.append_assoc, Text.sqlEscape]
      by_cases hc : c = '\''
      -- A quote is written twice: the first one seems to close the string, the second one reopens it.
      · rw [if_pos hc, hc, List.cons_append, List.cons_append, List.nil_append, tokensFrom, if_pos rfl,
          tokensFrom, if_pos rfl, ih, List.append_assoc, List.singleton_append]
      · rw [if_neg hc, List.singleton_append, tokensFrom, if_neg hc, ih, List.append_assoc,
          List.singleton_append]

/-- A string is one token, if no quote follows it. -/
theorem tokensFrom_sqlQuoted (s : String) {rest : List Char} (gap : rest.head? ≠ some '\'') :
    tokensFrom .outside ((Text.sqlQuoted s).toList ++ rest) =
      (tokensFrom .outside rest).map (.quoted s :: ·) := by
  rw [toList_sqlQuoted, List.cons_append, List.append_assoc, tokensFrom, if_pos rfl,
    tokensFrom_inside_escape, List.nil_append, List.singleton_append, tokensFrom, if_pos rfl]
  cases rest with
  | nil => rw [tokensFrom, tokensFrom, String.ofList_toList, Option.map_some]
  | cons c rest =>
      have hc : c ≠ '\'' := by simpa using gap
      rw [tokensFrom, if_neg hc, tokensFrom, if_neg hc, Option.map_map, String.ofList_toList]
      rfl

/-! ### Similar texts -/

/-- A text without single quotes. -/
def Plain (sql : String) : Prop :=
  '\'' ∉ sql.toList

instance : DecidablePred Plain := fun sql =>
  inferInstanceAs (Decidable ('\'' ∉ sql.toList))

/-- Two texts that differ only in the contents of their strings, where the contents in one place are
equal or related. No two strings stand side by side. -/
inductive Similar (R : String → String → Prop) : List Char → List Char → Prop
  | nil : Similar R [] []
  | char {a b : List Char} (c : Char) (hc : c ≠ '\'') (rest : Similar R a b) :
      Similar R (c :: a) (c :: b)
  | string {s t : String} {a b : List Char} (content : s = t ∨ R s t) (rest : Similar R a b)
      (gap : a.head? ≠ some '\'') :
      Similar R ((Text.sqlQuoted s).toList ++ a) ((Text.sqlQuoted t).toList ++ b)

namespace Similar

variable {R : String → String → Prop} {a b c d : List Char}

/-- Similar texts begin with the same character. -/
theorem head?_eq (h : Similar R a b) : a.head? = b.head? := by
  cases h with
  | nil => rfl
  | char c _ _ => rfl
  | string _ _ _ => rw [toList_sqlQuoted, toList_sqlQuoted]; rfl

/-- Similar texts are read as the same tokens but for the contents of strings. -/
theorem exists_tokens (h : Similar R a b) :
    ∃ ts us, tokensFrom .outside a = some ts ∧ tokensFrom .outside b = some us ∧
      List.Forall₂ (Token.Similar R) ts us := by
  induction h with
  | nil => exact ⟨[], [], rfl, rfl, .nil⟩
  | char c hc _ ih =>
      obtain ⟨ts, us, hts, hus, hall⟩ := ih
      refine ⟨.char c :: ts, .char c :: us, ?_, ?_, .cons (.same _) hall⟩
      · rw [tokensFrom, if_neg hc, hts, Option.map_some]
      · rw [tokensFrom, if_neg hc, hus, Option.map_some]
  | @string s t a b content rest gap ih =>
      obtain ⟨ts, us, hts, hus, hall⟩ := ih
      have gap' : b.head? ≠ some '\'' := by
        rwa [← rest.head?_eq]
      refine ⟨.quoted s :: ts, .quoted t :: us, ?_, ?_, .cons ?_ hall⟩
      · rw [tokensFrom_sqlQuoted s gap, hts, Option.map_some]
      · rw [tokensFrom_sqlQuoted t gap', hus, Option.map_some]
      · rcases content with rfl | content
        · exact .same _
        · exact .strings content

/-! ### Building similar texts -/

/-- Characters that are not quotes may precede similar texts. -/
theorem plain_append (hc : '\'' ∉ c) (h : Similar R a b) : Similar R (c ++ a) (c ++ b) := by
  induction c with
  | nil => exact h
  | cons x c ih =>
      obtain ⟨hx, hc⟩ := not_or.mp (mt List.mem_cons.mpr hc)
      exact .char x (Ne.symm hx) (ih hc)

/-- Similar texts may follow each other, unless a string would follow a string. -/
theorem append (h : Similar R a b) (h' : Similar R c d) (gap : c.head? ≠ some '\'') :
    Similar R (a ++ c) (b ++ d) := by
  induction h with
  | nil => exact h'
  | char x hx _ ih => exact .char x hx ih
  | @string s t a b content rest gapa ih =>
      rw [List.append_assoc, List.append_assoc]
      refine .string content ih ?_
      rw [List.head?_append]
      cases ha : a.head? with
      | none => rwa [Option.none_or]
      | some x => rwa [Option.some_or, ← ha]

/-- A text without quotes may stand between similar texts. -/
theorem join {sep : List Char} (h : Similar R a b) (hsep : '\'' ∉ sep) (hne : sep ≠ [])
    (h' : Similar R c d) : Similar R (a ++ (sep ++ c)) (b ++ (sep ++ d)) := by
  refine h.append (h'.plain_append hsep) ?_
  cases sep with
  | nil => exact absurd rfl hne
  | cons x sep =>
      intro hx
      rw [List.cons_append, List.head?_cons, Option.some.injEq] at hx
      exact hsep (hx ▸ List.mem_cons_self)

/-- A text without quotes is similar to itself. -/
theorem refl_of_plain (hc : '\'' ∉ c) : Similar R c c := by
  have h : Similar R (c ++ []) (c ++ []) := plain_append hc .nil
  rwa [List.append_nil] at h

/-! ### Enclosed texts -/

/-- The contents of a string do not count when parentheses are matched. -/
theorem closesAtEnd_escape (depth : Nat) (s rest : List Char) :
    closesAtEnd depth true (s.flatMap Text.sqlEscape ++ rest) = closesAtEnd depth true rest := by
  induction s with
  | nil => rfl
  | cons c s ih =>
      rw [List.flatMap_cons, List.append_assoc, Text.sqlEscape]
      by_cases hc : c = '\''
      · rw [if_pos hc]
        exact ih
      · rw [if_neg hc, List.singleton_append, closesAtEnd, if_neg hc, if_pos rfl, ih]

/-- A quoted text neither opens nor closes a parenthesis. -/
theorem closesAtEnd_sqlQuoted (depth : Nat) (s : String) (rest : List Char) :
    closesAtEnd depth false ((Text.sqlQuoted s).toList ++ rest) = closesAtEnd depth false rest := by
  rw [toList_sqlQuoted, List.cons_append, List.append_assoc, closesAtEnd, if_pos rfl, Bool.not_false,
    closesAtEnd_escape]
  rfl

/-- Of similar texts both are empty or neither is. -/
theorem isEmpty_eq (h : Similar R a b) : a.isEmpty = b.isEmpty := by
  cases h with
  | nil => rfl
  | char c _ _ => rfl
  | string _ _ _ => rw [toList_sqlQuoted, toList_sqlQuoted]; rfl

/-- Of similar texts both close at their end or neither does. -/
theorem closesAtEnd_eq (h : Similar R a b) (depth : Nat) :
    closesAtEnd depth false a = closesAtEnd depth false b := by
  induction h generalizing depth with
  | nil => rfl
  | char c hc rest ih =>
      rw [closesAtEnd, closesAtEnd, if_neg hc, if_neg hc]
      simp only [ih, rest.isEmpty_eq]
  | string _ _ _ ih => rw [closesAtEnd_sqlQuoted, closesAtEnd_sqlQuoted, ih]

/-- Similar texts end with the same character. -/
theorem getLast?_eq (h : Similar R a b) : a.getLast? = b.getLast? := by
  induction h with
  | nil => rfl
  | char c _ _ ih => rw [List.getLast?_cons, List.getLast?_cons, ih]
  | string _ _ _ ih =>
      rw [List.getLast?_append, List.getLast?_append, ih, toList_sqlQuoted, toList_sqlQuoted,
        ← List.cons_append, ← List.cons_append, List.getLast?_concat, List.getLast?_concat]

/-- Whether a text is enclosed does not depend on the contents of its strings. -/
theorem enclosedChars_eq (h : Similar R a b) : enclosedChars a = enclosedChars b := by
  rw [enclosedChars, enclosedChars, h.head?_eq, h.getLast?_eq, h.closesAtEnd_eq]

end Similar

/-! ### Similar strings -/

/-- Two SQL texts that differ only in the contents of their strings. -/
def Alike (R : String → String → Prop) (x y : String) : Prop :=
  Similar R x.toList y.toList

namespace Alike

variable {R : String → String → Prop} {x x' y y' : String}

/-- A text without quotes is like itself. -/
theorem plain {sql : String} (h : Plain sql) : Alike R sql sql :=
  Similar.refl_of_plain h

/-- Quoted texts of related contents are alike. -/
theorem quoted {s t : String} (h : s = t ∨ R s t) : Alike R (Text.sqlQuoted s) (Text.sqlQuoted t) := by
  have hstring := Similar.string h .nil (by simp)
  rwa [List.append_nil, List.append_nil] at hstring

/-- Texts that are alike are alike with a text between them that sets them apart. -/
theorem join (h : Alike R x x') {sep : String} (hsep : Plain sep) (hne : sep ≠ "") (h' : Alike R y y') :
    Alike R (x ++ sep ++ y) (x' ++ sep ++ y') := by
  have hjoin := Similar.join h hsep (mt String.toList_eq_nil_iff.mp hne) h'
  simpa only [Alike, String.toList_append, List.append_assoc] using hjoin

/-- Texts that are alike are alike behind a text without quotes. -/
theorem precede {sql : String} (h : Plain sql) (h' : Alike R y y') :
    Alike R (sql ++ y) (sql ++ y') := by
  have hprecede := Similar.plain_append h h'
  simpa only [Alike, String.toList_append] using hprecede

/-- Texts that are alike are alike in front of a text without quotes. -/
theorem follow (h : Alike R x x') {sql : String} (hsql : Plain sql) :
    Alike R (x ++ sql) (x' ++ sql) := by
  by_cases hne : sql = ""
  · rwa [hne, String.append_empty, String.append_empty]
  · have hjoin := h.join hsql hne (.plain (by decide : Plain ""))
    rwa [String.append_empty, String.append_empty] at hjoin

/-- Similar texts with a separator between them. -/
theorem intercalate {sep : String} (hsep : Plain sep) (hne : sep ≠ "") {xs ys : List String}
    (h : List.Forall₂ (Alike R) xs ys) : Alike R (sep.intercalate xs) (sep.intercalate ys) := by
  induction h with
  | nil =>
      rw [String.intercalate_nil]
      exact .plain (by decide)
  | @cons x y xs ys head tail ih =>
      cases tail with
      | nil => rwa [String.intercalate_singleton, String.intercalate_singleton]
      | cons _ _ =>
          rw [String.intercalate_cons_cons, String.intercalate_cons_cons]
          exact head.join hsep hne ih

/-- Parentheses are put around both of two similar texts, or around neither. -/
theorem enclose (h : Alike R x x') : Alike R (enclose x) (enclose x') := by
  have hsame : isEnclosed x = isEnclosed x' := Similar.enclosedChars_eq h
  rw [Sql.enclose, Sql.enclose, hsame]
  split
  · exact h
  · exact (h.precede (by decide)).follow (by decide)

end Alike

end RuleLang.Sql
