import Mathlib.Data.List.Basic
import RuleLang.Sql.Fragment

/-!
# Parentheses and quotes in a text

Where a character stands in a text of SQL: inside how many parentheses, and whether inside quotes.

* `Sql.Place`, `Sql.Place.scan`: the place at the end of a text.
* `Sql.Closed`: texts that end where they begin, outside of all parentheses and quotes.
* `Sql.Place.words`: the words of a text between the blanks outside of parentheses and quotes.
-/

namespace RuleLang.Sql

/-- How many parentheses are open, and whether a quote is. -/
structure Place where
  depth : Nat
  quoted : Bool
  deriving DecidableEq

namespace Place

/-- Outside of all parentheses and quotes. -/
def outside : Place := ⟨0, false⟩

/-- The place after a character. No parenthesis may close that is not open. -/
def step (p : Place) (c : Char) : Option Place :=
  if c = '\'' then some { p with quoted := !p.quoted }
  else if p.quoted then some p
  else if c = '(' then some { p with depth := p.depth + 1 }
  else if c = ')' then
    if p.depth = 0 then none else some { p with depth := p.depth - 1 }
  else some p

/-- The place at the end of a text. -/
def scan (p : Place) (cs : List Char) : Option Place :=
  cs.foldlM step p

/-- The empty text leads nowhere else. -/
@[simp] theorem scan_nil (p : Place) : p.scan [] = some p := rfl

/-- A text is gone through character by character. -/
@[simp] theorem scan_cons (p : Place) (c : Char) (cs : List Char) :
    p.scan (c :: cs) = (p.step c).bind fun q => q.scan cs := rfl

end Place

/-- A text in which all quotes and parentheses are closed. -/
def Closed (cs : List Char) : Prop :=
  Place.outside.scan cs = some .outside

instance (cs : List Char) : Decidable (Closed cs) :=
  inferInstanceAs (Decidable (_ = _))

/-! ### Words -/

/-- A word of a text. -/
abbrev Word := List Char

namespace Place

/-- The words of a text, which stand between the blanks outside of parentheses and quotes; none if the
text does not end outside. -/
def words (p : Place) : List Char → Option (List Word)
  | [] => if p = outside then some [[]] else none
  | c :: cs =>
    if c = ' ' ∧ p = outside then (words p cs).map ([] :: ·)
    else (p.step c).bind fun q => (words q cs).map (List.modifyHead (c :: ·))

variable {p : Place} {as bs : List Char} {ws : List Word}

/-- A text has at least one word. -/
theorem words_ne_nil (h : p.words as = some ws) : ws ≠ [] := by
  induction as generalizing p ws with
  | nil =>
      rw [words] at h
      split at h
      · cases h
        exact List.cons_ne_nil _ _
      · cases h
  | cons c cs ih =>
      rw [words] at h
      split at h
      · obtain ⟨rest, -, rfl⟩ := Option.map_eq_some_iff.mp h
        exact List.cons_ne_nil _ _
      · obtain ⟨q, -, h⟩ := Option.bind_eq_some_iff.mp h
        obtain ⟨rest, hrest, rfl⟩ := Option.map_eq_some_iff.mp h
        intro hnil
        exact ih hrest (List.modifyHead_eq_nil_iff.mp hnil)

/-- The words on both sides of a blank outside of parentheses and quotes. -/
theorem words_append_blank (h : p.words as = some ws) :
    p.words (as ++ ' ' :: bs) = (outside.words bs).map (ws ++ ·) := by
  induction as generalizing p ws with
  | nil =>
      rw [words] at h
      split at h
      · rename_i houtside
        cases h
        rw [List.nil_append, words, if_pos ⟨rfl, houtside⟩, houtside]
        rfl
      · cases h
  | cons c cs ih =>
      rw [words] at h
      rw [List.cons_append, words]
      split at h
      · rename_i hblank
        obtain ⟨rest, hrest, rfl⟩ := Option.map_eq_some_iff.mp h
        rw [if_pos hblank, ih hrest, Option.map_map]
        rfl
      · rename_i hblank
        obtain ⟨q, hq, h⟩ := Option.bind_eq_some_iff.mp h
        obtain ⟨rest, hrest, rfl⟩ := Option.map_eq_some_iff.mp h
        have hnonempty := words_ne_nil hrest
        rw [if_neg hblank, hq, Option.bind_some, ih hrest, Option.map_map]
        cases rest with
        | nil => exact absurd rfl hnonempty
        | cons word rest => rfl

/-- The words of a text with blanks between them are the text. -/
theorem intercalate_words (h : p.words as = some ws) : [' '].intercalate ws = as := by
  induction as generalizing p ws with
  | nil =>
      rw [words] at h
      split at h
      · cases h
        rfl
      · cases h
  | cons c cs ih =>
      rw [words] at h
      split at h
      · rename_i hblank
        obtain ⟨rest, hrest, rfl⟩ := Option.map_eq_some_iff.mp h
        have hnonempty := words_ne_nil hrest
        cases rest with
        | nil => exact absurd rfl hnonempty
        | cons word rest => rw [List.intercalate_cons_cons, ih hrest, hblank.1]; rfl
      · obtain ⟨q, -, h⟩ := Option.bind_eq_some_iff.mp h
        obtain ⟨rest, hrest, rfl⟩ := Option.map_eq_some_iff.mp h
        have hnonempty := words_ne_nil hrest
        rw [← ih hrest]
        cases rest with
        | nil => exact absurd rfl hnonempty
        | cons word rest =>
            cases rest with
            | nil => simp [List.intercalate]
            | cons next rest => simp [List.intercalate]

/-- A text without blanks goes on in the same word. -/
theorem words_append_of_not_blank (bs : List Char) {q : Place} (h : p.scan as = some q)
    (hblank : ' ' ∉ as) :
    p.words (as ++ bs) = (q.words bs).map (List.modifyHead (as ++ ·)) := by
  induction as generalizing p with
  | nil =>
      rw [scan_nil, Option.some.injEq] at h
      rw [h, List.nil_append]
      cases q.words bs with
      | none => rfl
      | some ws => cases ws <;> rfl
  | cons c cs ih =>
      rw [List.mem_cons, not_or] at hblank
      rw [scan_cons] at h
      obtain ⟨next, hnext, h⟩ := Option.bind_eq_some_iff.mp h
      rw [List.cons_append, words, if_neg fun hc => hblank.1 hc.1.symm, hnext, Option.bind_some,
        ih h hblank.2, Option.map_map]
      cases q.words bs with
      | none => rfl
      | some ws => cases ws <;> rfl

/-! ### Inside parentheses -/

/-- The same place inside more parentheses. -/
def inside (depth : Nat) (p : Place) : Place :=
  { p with depth := p.depth + depth }

/-- A step further inside is the step outside, taken further inside. -/
theorem step_inside {q : Place} {c : Char} (depth : Nat) (h : p.step c = some q) :
    (p.inside depth).step c = some (q.inside depth) := by
  unfold step at h ⊢
  by_cases hquote : c = '\''
  · rw [if_pos hquote] at h ⊢
    cases h
    rfl
  · rw [if_neg hquote] at h ⊢
    by_cases hquoted : p.quoted
    · rw [if_pos hquoted] at h
      cases h
      exact if_pos hquoted
    · rw [if_neg hquoted] at h
      refine (if_neg hquoted).trans ?_
      by_cases hopen : c = '('
      · rw [if_pos hopen] at h ⊢
        cases h
        simp only [inside, Option.some.injEq, Place.mk.injEq, and_true]
        omega
      · rw [if_neg hopen] at h ⊢
        by_cases hclose : c = ')'
        · rw [if_pos hclose] at h ⊢
          split at h
          · cases h
          · cases h
            rw [if_neg (by simp only [inside]; omega)]
            simp only [inside, Option.some.injEq, Place.mk.injEq, and_true]
            omega
        · rw [if_neg hclose] at h ⊢
          cases h
          rfl

/-- Inside parentheses, a text goes on in the same word. -/
theorem words_inside (bs : List Char) {q : Place} {depth : Nat} (h : p.scan as = some q)
    (hdepth : 0 < depth) :
    (p.inside depth).words (as ++ bs) =
      ((q.inside depth).words bs).map (List.modifyHead (as ++ ·)) := by
  induction as generalizing p with
  | nil =>
      rw [scan_nil, Option.some.injEq] at h
      rw [h, List.nil_append]
      cases (q.inside depth).words bs with
      | none => rfl
      | some ws => cases ws <;> rfl
  | cons c cs ih =>
      rw [scan_cons] at h
      obtain ⟨next, hnext, h⟩ := Option.bind_eq_some_iff.mp h
      have houtside : ¬ (c = ' ' ∧ p.inside depth = outside) := by
        rintro ⟨-, heq⟩
        have hzero : p.depth + depth = 0 := congrArg Place.depth heq
        omega
      rw [List.cons_append, words, if_neg houtside, step_inside depth hnext, Option.bind_some, ih h,
        Option.map_map]
      cases (q.inside depth).words bs with
      | none => rfl
      | some ws => cases ws <;> rfl

end Place

end RuleLang.Sql
