import RuleLang.Proofs.Sql.Place

/-!
# How conditions in SQL are read

A text is read as alternatives with ` OR ` between them, each of them conditions with ` AND ` between
them, outside of parentheses and quotes; the ` AND ` that belongs to a `BETWEEN` separates nothing.

* `Sql.alternatives?`: the conditions of each alternative of a text.
* `Sql.conjoin`: the alternatives of two texts with ` AND ` between them.
* `Sql.alternatives?_and`: a text in front of ` AND ` keeps its alternatives but the last, which goes on
  in the text behind.
-/

namespace RuleLang.Sql

/-! ### Reading words -/

/-- Words as alternatives of conditions of words. `between` says that a `BETWEEN` waits for its
`AND`. -/
def clauses (between : Bool) : List Word → Option (List (List (List Word)))
  | [] => if between then none else some [[[]]]
  | word :: rest =>
    if word = "OR".toList then
      if between then none else (clauses false rest).map ([[]] :: ·)
    else if word = "AND".toList ∧ between = false then
      (clauses false rest).map (List.modifyHead ([] :: ·))
    else
      (clauses (word = "BETWEEN".toList || between && word ≠ "AND".toList) rest).map
        (List.modifyHead (List.modifyHead (word :: ·)))

/-- The alternatives of a text, each with its conditions; none if parentheses, quotes or a `BETWEEN` are
left open. -/
def alternatives? (sql : String) : Option (List (List String)) :=
  ((Place.outside.words sql.toList).bind (clauses false)).map
    (List.map (List.map fun ws => String.ofList ([' '].intercalate ws)))

/-- The last alternative of a text goes on in the first one of another text. -/
def conjoin {α : Type} : List (List α) → List (List α) → List (List α)
  | [], bs => bs
  | [a], [] => [a]
  | [a], b :: bs => (a ++ b) :: bs
  | a :: a' :: as, bs => a :: conjoin (a' :: as) bs

/-- A single alternative goes on in the first one of another text. -/
@[simp] theorem conjoin_singleton {α : Type} (a b : List α) (bs : List (List α)) :
    conjoin [a] (b :: bs) = (a ++ b) :: bs := rfl

/-- Conditions may be changed one by one before or after two texts are put together. -/
theorem map_conjoin {α β : Type} (f : α → β) (as bs : List (List α)) :
    (conjoin as bs).map (List.map f) = conjoin (as.map (List.map f)) (bs.map (List.map f)) := by
  fun_induction conjoin as bs with
  | case1 bs => rfl
  | case2 a => rfl
  | case3 a b bs => simp
  | case4 a a' as bs ih =>
      rw [List.map_cons, ih]
      rfl

/-- What is put in front of the first alternative stays there. -/
theorem conjoin_modifyHead {α : Type} {g : List α → List α} {a b : List α} {as bs : List (List α)}
    (h : g (a ++ b) = g a ++ b) :
    conjoin (g a :: as) (b :: bs) = List.modifyHead g (conjoin (a :: as) (b :: bs)) := by
  cases as with
  | nil => rw [conjoin_singleton, conjoin_singleton, List.modifyHead_cons, h]
  | cons a' as => rfl

/-- Words are read as at least one alternative with at least one condition. -/
theorem exists_of_clauses {between : Bool} {words : List Word} {alternatives : List (List (List Word))}
    (h : clauses between words = some alternatives) :
    ∃ c cs as, alternatives = (c :: cs) :: as := by
  induction words generalizing between alternatives with
  | nil =>
      rw [clauses] at h
      split at h
      · cases h
      · cases h
        exact ⟨[], [], [], rfl⟩
  | cons word rest ih =>
      rw [clauses] at h
      split at h
      · split at h
        · cases h
        · obtain ⟨as, -, rfl⟩ := Option.map_eq_some_iff.mp h
          exact ⟨[], [], as, rfl⟩
      · split at h
        all_goals
          obtain ⟨as, has, rfl⟩ := Option.map_eq_some_iff.mp h
          obtain ⟨c, cs, as, rfl⟩ := ih has
          exact ⟨_, _, _, rfl⟩

/-- A word that is no separator goes into the first condition. -/
theorem clauses_word {between : Bool} {word : Word} {rest : List Word} (hor : word ≠ "OR".toList)
    (hand : word ≠ "AND".toList) (hbetween : word ≠ "BETWEEN".toList) :
    clauses between (word :: rest) =
      (clauses between rest).map (List.modifyHead (List.modifyHead (word :: ·))) := by
  have hflag : (decide (word = "BETWEEN".toList) || between && decide (word ≠ "AND".toList)) =
      between := by
    rw [decide_eq_false hbetween, decide_eq_true hand, Bool.false_or, Bool.and_true]
  rw [clauses, if_neg hor, if_neg fun h => hand h.1, hflag]

/-- A `BETWEEN` waits for its `AND`, which separates nothing. -/
theorem clauses_between {word : Word} {rest : List Word} (hor : word ≠ "OR".toList)
    (hand : word ≠ "AND".toList) (hbetween : word ≠ "BETWEEN".toList) :
    clauses false ("BETWEEN".toList :: word :: "AND".toList :: rest) =
      (clauses false rest).map
        (List.modifyHead (List.modifyHead (["BETWEEN".toList, word, "AND".toList] ++ ·))) := by
  have hwaits : clauses true ("AND".toList :: rest) =
      (clauses false rest).map (List.modifyHead (List.modifyHead ("AND".toList :: ·))) := by
    rw [clauses, if_neg (by decide), if_neg (by decide)]
    rfl
  rw [clauses, if_neg (by decide), if_neg (by decide)]
  change (clauses true (word :: "AND".toList :: rest)).map _ = _
  rw [clauses_word hor hand hbetween, hwaits, Option.map_map, Option.map_map]
  cases hrest : clauses false rest with
  | none => rfl
  | some alternatives =>
      obtain ⟨c, cs, as, rfl⟩ := exists_of_clauses hrest
      rfl

/-- What is put in front of the first alternative of a text stays there when another text follows. -/
theorem map_modifyHead_conjoin {rest : List Word} {alternatives : List (List (List Word))}
    {g : List (List Word) → List (List Word)} (hne : ∃ a as, alternatives = a :: as)
    (hg : ∀ a b, alternatives.head? = some a → g (a ++ b) = g a ++ b) :
    ((clauses false rest).map (conjoin alternatives)).map (List.modifyHead g) =
      (clauses false rest).map (conjoin (List.modifyHead g alternatives)) := by
  obtain ⟨a, as, rfl⟩ := hne
  cases hrest : clauses false rest with
  | none => rfl
  | some others =>
      obtain ⟨b, bs, others, rfl⟩ := exists_of_clauses hrest
      rw [Option.map_some, Option.map_some, Option.map_some, List.modifyHead_cons,
        conjoin_modifyHead (hg a _ rfl)]

/-- Words in front of an `AND` that no `BETWEEN` waits for are read by themselves. -/
theorem clauses_append_and {between : Bool} {words : List Word}
    {alternatives : List (List (List Word))} (rest : List Word)
    (h : clauses between words = some alternatives) :
    clauses between (words ++ "AND".toList :: rest) =
      (clauses false rest).map (conjoin alternatives) := by
  have hor : "AND".toList ≠ "OR".toList := by decide
  induction words generalizing between alternatives with
  | nil =>
      rw [clauses] at h
      split at h
      · cases h
      · rename_i hbetween
        cases h
        rw [List.nil_append, clauses, if_neg hor, if_pos ⟨rfl, by simpa using hbetween⟩]
        cases hrest : clauses false rest with
        | none => rfl
        | some others =>
            obtain ⟨b, bs, others, rfl⟩ := exists_of_clauses hrest
            rfl
  | cons word words ih =>
      rw [clauses] at h
      rw [List.cons_append, clauses]
      split at h
      · rename_i hword
        rw [if_pos hword]
        split at h
        · cases h
        · rename_i hbetween
          obtain ⟨as, has, rfl⟩ := Option.map_eq_some_iff.mp h
          obtain ⟨c, cs, as, rfl⟩ := exists_of_clauses has
          rw [if_neg hbetween, ih has, Option.map_map]
          rfl
      · rename_i hword
        rw [if_neg hword]
        split at h
        · rename_i hand
          obtain ⟨as, has, rfl⟩ := Option.map_eq_some_iff.mp h
          obtain ⟨c, cs, as, rfl⟩ := exists_of_clauses has
          rw [if_pos hand, ih has]
          exact map_modifyHead_conjoin ⟨_, _, rfl⟩ fun a b _ => rfl
        · rename_i hand
          obtain ⟨as, has, rfl⟩ := Option.map_eq_some_iff.mp h
          obtain ⟨c, cs, as, rfl⟩ := exists_of_clauses has
          rw [if_neg hand, ih has]
          refine map_modifyHead_conjoin ⟨_, _, rfl⟩ ?_
          intro a b ha
          cases ha
          rfl

/-! ### Reading texts -/

/-- A text in front of ` AND ` keeps its alternatives but the last, which goes on in the text behind. -/
theorem alternatives?_and {a b : String} {as : List (List String)} (h : alternatives? a = some as) :
    alternatives? (a ++ " AND " ++ b) = (alternatives? b).map (conjoin as) := by
  unfold alternatives? at h ⊢
  obtain ⟨read, hread, rfl⟩ := Option.map_eq_some_iff.mp h
  obtain ⟨words, hwords, hclauses⟩ := Option.bind_eq_some_iff.mp hread
  have hand : Place.outside.words ("AND".toList ++ ' ' :: b.toList) =
      (Place.outside.words b.toList).map (["AND".toList] ++ ·) :=
    Place.words_append_blank (by decide)
  have hsplit : (a ++ " AND " ++ b).toList =
      a.toList ++ ' ' :: ("AND".toList ++ ' ' :: b.toList) := by
    rw [String.toList_append, String.toList_append, List.append_assoc]
    rfl
  rw [hsplit, Place.words_append_blank hwords, hand, Option.map_map]
  cases hrest : Place.outside.words b.toList with
  | none => rfl
  | some rest =>
      rw [Option.map_some, Option.bind_some, Option.bind_some, Function.comp_apply,
        List.singleton_append, clauses_append_and rest hclauses, Option.map_map, Option.map_map]
      exact congrArg (fun f => Option.map f _) (funext fun bs => map_conjoin _ _ _)

/-- A text that is read at all has at least one alternative. -/
theorem exists_of_alternatives? {sql : String} {as : List (List String)}
    (h : alternatives? sql = some as) : ∃ a rest, as = a :: rest := by
  unfold alternatives? at h
  obtain ⟨read, hread, rfl⟩ := Option.map_eq_some_iff.mp h
  obtain ⟨words, -, hclauses⟩ := Option.bind_eq_some_iff.mp hread
  obtain ⟨c, cs, rest, rfl⟩ := exists_of_clauses hclauses
  exact ⟨_, _, rfl⟩

end RuleLang.Sql
