import RuleLang.Proofs.Sql.Closed
import RuleLang.Proofs.Sql.Column

/-!
# Operators outside of parentheses

What binds as loosely as a comparison, or looser, can be torn apart by an operator next to it, unless it
stands in parentheses. This says of every form of compiled text whether it holds such an operator outside
of all parentheses and quotes.

* `Sql.IsLoose`: a text holds such an operator.
* `Sql.LooseIff`: a text is closed, and loose exactly under a condition.
* `Sql.looseIff_unary`, `Sql.looseIff_joined`, `Sql.looseIff_logical`: the condition for what each kind of
  node writes.
-/

namespace RuleLang.Sql

open Place

/-- A bare text is closed. -/
theorem closed_of_isBare {text : String} (h : IsBare text) : Closed text.toList := by
  have hmarks : enclosers ⊆ marks := by decide
  exact closed_of_unmarked fun c hc hmark => h.2.2 c hc (hmarks hmark)

/-! ### Loose texts -/

/-- The operators that bind as loosely as a comparison, or looser. -/
def looseOperators : List String :=
  ["=", "<", ">", " IN ", "NOT ", " AND ", " OR "]

/-- A text holds an operator that binds as loosely as a comparison, or looser, outside of all parentheses
and quotes. -/
def IsLoose (sql : String) : Prop :=
  ∃ op ∈ looseOperators, ∃ before after, sql = before ++ op ++ after ∧ Closed before.toList

/-- The characters that loose operators are written with, or set apart. -/
def looseMarks : List Char := ['=', '<', '>', ' ']

/-- Outside of all parentheses and quotes of a loose text stands such a character. -/
theorem exists_of_isLoose {sql : String} (h : IsLoose sql) :
    ∃ before c after, sql.toList = before ++ c :: after ∧ Closed before ∧ c ∈ looseMarks := by
  obtain ⟨op, hop, before, after, rfl, hbefore⟩ := h
  simp only [looseOperators, List.mem_cons, List.not_mem_nil, or_false] at hop
  rcases hop with rfl | rfl | rfl | rfl | rfl | rfl | rfl
  · exact ⟨before.toList, '=', after.toList, by simp, hbefore, by decide⟩
  · exact ⟨before.toList, '<', after.toList, by simp, hbefore, by decide⟩
  · exact ⟨before.toList, '>', after.toList, by simp, hbefore, by decide⟩
  · exact ⟨before.toList, ' ', "IN ".toList ++ after.toList, by simp, hbefore, by decide⟩
  · have hnot : Closed "NOT".toList := by decide
    exact ⟨before.toList ++ "NOT".toList, ' ', after.toList, by simp, hbefore.append hnot, by decide⟩
  · exact ⟨before.toList, ' ', "AND ".toList ++ after.toList, by simp, hbefore, by decide⟩
  · exact ⟨before.toList, ' ', "OR ".toList ++ after.toList, by simp, hbefore, by decide⟩

/-- A bare text is not loose. -/
theorem not_isLoose_of_isBare {text : String} (h : IsBare text) : ¬ IsLoose text := by
  intro hloose
  obtain ⟨before, c, after, htext, -, hc⟩ := exists_of_isLoose hloose
  have hmem : c ∈ text.toList := by rw [htext]; simp
  have hmarks : looseMarks ⊆ marks := by decide
  exact h.2.2 c hmem (hmarks hc)

/-- A closed text in parentheses is not loose, nor is it after a word or a sign. The induction is on what
stands in front of the parentheses. -/
theorem not_isLoose_enclosed {sql : String} (front inner : List Char)
    (hsql : sql.toList = front ++ ('(' :: inner ++ [')']))
    (hfront : ∀ c ∈ front, c ∉ enclosers ∧ c ∉ looseMarks) (hinner : Closed inner) :
    ¬ IsLoose sql := by
  intro hloose
  obtain ⟨before, c, after, htext, hbefore, hc⟩ := exists_of_isLoose hloose
  rw [hsql] at htext
  clear hsql hloose
  induction front generalizing before with
  | nil =>
      rw [List.nil_append] at htext
      obtain rfl := hinner.eq_nil_of_enclosed htext hbefore
      obtain ⟨rfl, -⟩ := List.cons.inj htext
      exact absurd hc (by decide)
  | cons first front ih =>
      rw [List.forall_mem_cons] at hfront
      cases before with
      | nil =>
          obtain ⟨rfl, -⟩ := List.cons.inj htext
          exact hfront.1.2 hc
      | cons next before =>
          obtain ⟨rfl, htail⟩ := List.cons.inj htext
          have hfirst : outside.scan [first] = some outside :=
            scan_of_unmarked (List.forall_mem_singleton.mpr hfront.1.1)
          rw [Closed, ← List.singleton_append, scan_append, hfirst, Option.bind_some] at hbefore
          exact ih hfront.2 before htail hbefore

/-! ### What operators write -/

/-- A text is closed, and it is loose exactly under a condition. -/
structure LooseIff (sql : String) (loose : Prop) : Prop where
  closed : Closed sql.toList
  isLoose_iff : IsLoose sql ↔ loose

variable {a b : String} {P Q : Prop}

/-- A bare text is closed and never loose. -/
theorem looseIff_of_isBare {text : String} (h : IsBare text) : LooseIff text False :=
  ⟨closed_of_isBare h, iff_false_intro (not_isLoose_of_isBare h)⟩

/-- The condition may be put in other words. -/
theorem LooseIff.of_iff {sql : String} (h : LooseIff sql P) (hiff : P ↔ Q) : LooseIff sql Q :=
  ⟨h.closed, h.isLoose_iff.trans hiff⟩

/-- What stands in parentheses after a word or a sign holds together. -/
theorem looseIff_enclosed (front : String) {inner : String}
    (hfront : ∀ c ∈ front.toList, c ∉ enclosers ∧ c ∉ looseMarks) (hinner : Closed inner.toList) :
    LooseIff (front ++ "(" ++ inner ++ ")") False := by
  have htext : (front ++ "(" ++ inner ++ ")").toList =
      front.toList ++ ('(' :: inner.toList ++ [')']) := by simp
  refine ⟨?_, iff_false_intro (not_isLoose_enclosed _ _ htext hfront hinner)⟩
  rw [htext]
  exact (closed_of_unmarked fun c hc => (hfront c hc).1).append hinner.enclosed

/-- Of the operators in front of an operand, only the one that is written as a word is loose. -/
theorem looseIff_unary (op : UnaryOp) (ha : LooseIff a P) :
    LooseIff (sign op ++ "(" ++ a ++ ")") (op = .not) := by
  by_cases hnot : op = .not
  · subst hnot
    have hsign : Closed "NOT ".toList := by decide
    refine ⟨closed_applied hsign ha.closed, iff_of_true ?_ rfl⟩
    exact ⟨"NOT ", by simp [looseOperators], "", "(" ++ a ++ ")",
      by simp only [sign, String.append_assoc, String.empty_append], by decide⟩
  · have hsign : ∀ c ∈ (sign op).toList, c ∉ enclosers ∧ c ∉ looseMarks := by
      cases op with
      | not => exact absurd rfl hnot
      | _ => simp [sign, enclosers, looseMarks]
    exact (looseIff_enclosed (sign op) hsign ha.closed).of_iff (iff_of_false not_false hnot)

/-- Of the operators between two operands, only the one without parentheses is loose. -/
theorem looseIff_joined (op : BinaryOp) (ha : LooseIff a P) (hb : LooseIff b Q) :
    LooseIff (joined op a b) (op = .within) := by
  have inner (between : String) (hbetween : Closed between.toList) :
      Closed (a ++ between ++ b).toList :=
    closed_join ha.closed hbetween hb.closed
  by_cases hwithin : op = .within
  · subst hwithin
    refine ⟨inner "=" (by decide), iff_of_true ?_ rfl⟩
    exact ⟨"=", by simp [looseOperators], a, b, rfl, ha.closed⟩
  · refine LooseIff.of_iff ?_ (iff_of_false not_false hwithin)
    by_cases hpower : op = .power
    · subst hpower
      have hpower := looseIff_enclosed "POWER" (by simp [enclosers, looseMarks]) (inner "," (by decide))
      simpa [joined, String.append_assoc] using hpower
    · have hbetween : Closed (between op).toList := by cases op <;> decide
      have hinfix := looseIff_enclosed "" (by simp) (inner (between op) hbetween)
      rw [IsInfix.joined_eq ⟨hpower, hwithin⟩]
      simpa [String.append_assoc] using hinfix

/-- A chain of two operands or more is loose. One operand stays as it is. -/
theorem looseIff_logical (op : LogicalOp) {texts : List String}
    (htexts : ∀ text ∈ texts, Closed text.toList) :
    LooseIff (logical op (texts.map .text)).toSql
      (2 ≤ texts.length ∨ ∃ text, texts = [text] ∧ IsLoose text) := by
  have hclosed := closed_logical op (List.forall_mem_map (f := Fragment.text).mpr htexts)
  cases texts with
  | nil =>
      have hbare : IsBare (logical op []).toSql := by cases op <;> decide
      exact (looseIff_of_isBare hbare).of_iff (iff_of_false not_false (by simp))
  | cons text rest =>
      cases rest with
      | nil => exact ⟨hclosed, by simp [logical, Fragment.toSql]⟩
      | cons next rest =>
          have hloose : separator op ∈ looseOperators := by cases op <;> decide
          have hsql : (logical op ((text :: next :: rest).map .text)).toSql =
              (separator op).intercalate ((text :: next :: rest).map enclose) := by
            have hmap : ((text :: next :: rest).map Fragment.text).map (fun operand =>
                enclose operand.toSql) = (text :: next :: rest).map enclose := by
              rw [List.map_map]
              rfl
            exact congrArg (separator op).intercalate hmap
          refine ⟨hclosed, iff_of_true ?_ (.inl (by simp))⟩
          refine ⟨separator op, hloose, enclose text,
            (separator op).intercalate ((next :: rest).map enclose), ?_,
            closed_enclose (htexts text List.mem_cons_self)⟩
          rw [hsql, List.map_cons, List.map_cons, String.intercalate_cons_cons]

end RuleLang.Sql
