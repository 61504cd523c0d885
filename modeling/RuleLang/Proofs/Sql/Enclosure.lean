import Mathlib
import RuleLang.Proofs.Sql.Pieces

/-!
# When a text is enclosed

A text needs no parentheses around it when it is enclosed in one pair already. Whether it is can be told by
counting: the parentheses outside of quotes are counted up and down, and the pair that the first character
opens is the one at which the count first comes back to zero.

* `Sql.unquoted`, `Sql.balance`: the characters outside of quotes, and how many parentheses they leave open.
* `Sql.Balanced`: texts in which all quotes and parentheses are closed, by counting.
* `Sql.Place.scan_eq_some_iff`, `Sql.closed_iff_balanced`: where a text ends is a matter of counting.
* `Sql.isEnclosed_iff_first_return`: the test for enclosed texts, and what it recognises.
-/

namespace RuleLang

namespace Sql

open Place

/-! ### Counting parentheses -/

/-- The characters of a text outside of quotes, where the text begins inside of quotes or not. -/
def unquoted (quoted : Bool) : List Char → List Char
  | [] => []
  | c :: cs =>
    if c = '\'' then unquoted (!quoted) cs
    else if quoted then unquoted quoted cs else c :: unquoted quoted cs

/-- The number of parentheses that open outside of quotes, less the number of those that close. -/
def balance (quoted : Bool) (cs : List Char) : Int :=
  (unquoted quoted cs).count '(' - (unquoted quoted cs).count ')'

/-- The empty text opens and closes nothing. -/
@[simp] theorem balance_nil (quoted : Bool) : balance quoted [] = 0 := rfl

/-- A character counts as the step that it takes. -/
theorem balance_of_step {p q : Place} {c : Char} (h : p.step c = some q) (cs : List Char) :
    balance p.quoted (c :: cs) = (q.depth - p.depth : Int) + balance q.quoted cs := by
  obtain ⟨depth, quoted⟩ := p
  unfold step at h
  unfold balance
  by_cases hquote : c = '\''
  · simp only [hquote, if_true, Option.some.injEq] at h
    subst h
    simp [hquote, unquoted]
  · cases quoted with
    | true =>
        simp only [hquote, if_false, if_true, Option.some.injEq] at h
        subst h
        simp [hquote, unquoted]
    | false => grind [unquoted]

/-- A parenthesis that closes none counts as one less. -/
theorem balance_close (cs : List Char) : balance false (')' :: cs) = -1 + balance false cs := by
  unfold balance
  grind [unquoted]

/-- A step goes in or out of quotes at a quote and nowhere else. -/
theorem quoted_of_step {p q : Place} {c : Char} (h : p.step c = some q) :
    q.quoted = (p.quoted ^^ decide (c = '\'')) := by
  unfold step at h
  grind

/-- All quotes and parentheses of a text are closed: the quotes are even in number, as many parentheses
open as close, and no parenthesis closes that was not open. -/
structure Balanced (cs : List Char) : Prop where
  quotes : Even (cs.count '\'')
  balance_eq_zero : balance false cs = 0
  balance_nonneg : ∀ k, 0 ≤ balance false (cs.take k)

/-- One character more makes an even number of quotes odd, or an odd one even, if it is a quote. -/
theorem odd_count_cons (c : Char) (cs : List Char) :
    decide (Odd ((c :: cs).count '\'')) = (decide (c = '\'') ^^ decide (Odd (cs.count '\''))) := by
  by_cases hquote : c = '\''
  · simp only [hquote, List.count_cons_self, Nat.odd_add_one, decide_not, decide_true, Bool.true_bne]
  · simp [hquote]

/-- A text leads from one place to another exactly when the counts say so: its quotes are odd in number if
one of the places is inside of quotes and the other is not, its parentheses make up the difference in
depth, and none of them closes more than was open. -/
theorem Place.scan_eq_some_iff {p q : Place} {cs : List Char} :
    p.scan cs = some q ↔ q.quoted = (p.quoted ^^ decide (Odd (cs.count '\''))) ∧
      (q.depth : Int) = p.depth + balance p.quoted cs ∧
      ∀ k, 0 ≤ (p.depth : Int) + balance p.quoted (cs.take k) := by
  induction cs generalizing p with
  | nil =>
      obtain ⟨depth, quoted⟩ := p
      obtain ⟨depth', quoted'⟩ := q
      simp [and_comm, eq_comm]
  | cons c cs ih =>
      rw [scan_cons]
      cases hstep : p.step c with
      | none =>
          obtain ⟨rfl, rfl⟩ := step_eq_none_iff.mp hstep
          simp only [Option.bind_none, reduceCtorEq, false_iff]
          rintro ⟨-, -, h⟩
          have hfirst := h 1
          rw [List.take_succ_cons, List.take_zero] at hfirst
          exact absurd hfirst (by decide)
      | some next =>
          have hcount := balance_of_step hstep
          rw [Option.bind_some, ih]
          refine and_congr ?_ (and_congr ?_ ?_)
          · rw [quoted_of_step hstep, odd_count_cons, Bool.xor_assoc]
          · rw [hcount]
            omega
          · constructor
            · intro h k
              cases k with
              | zero => simp
              | succ k =>
                  rw [List.take_succ_cons, hcount]
                  have hrest := h k
                  omega
            · intro h k
              have hrest := h (k + 1)
              rw [List.take_succ_cons, hcount] at hrest
              omega

/-- A text is closed exactly when it is balanced. -/
theorem closed_iff_balanced {cs : List Char} : Closed cs ↔ Balanced cs := by
  unfold Closed
  rw [scan_eq_some_iff]
  simp only [outside, Bool.false_bne, Int.natCast_zero, Int.zero_add]
  constructor
  · rintro ⟨hquotes, hzero, hnonneg⟩
    exact ⟨by simpa using hquotes, hzero.symm, hnonneg⟩
  · rintro ⟨hquotes, hzero, hnonneg⟩
    exact ⟨by simpa using hquotes, hzero.symm, hnonneg⟩

instance (cs : List Char) : Decidable (Balanced cs) :=
  decidable_of_iff _ closed_iff_balanced

/-! ### The first return -/

/-- The count reaches a number at the end of a text, and not before. -/
def FirstReached (target : Int) (quoted : Bool) (cs : List Char) : Prop :=
  balance quoted cs = target ∧ ∀ k < cs.length, balance quoted (cs.take k) ≠ target

/-- Behind a character, the count has to reach what the character leaves to be reached. -/
theorem firstReached_cons {target step : Int} {quoted next : Bool} {c : Char} {cs : List Char}
    (hstep : ∀ rest, balance quoted (c :: rest) = step + balance next rest) :
    FirstReached target quoted (c :: cs) ↔ target ≠ 0 ∧ FirstReached (target - step) next cs := by
  unfold FirstReached
  rw [List.length_cons, hstep]
  constructor
  · rintro ⟨hend, hbefore⟩
    refine ⟨fun hzero => hbefore 0 (Nat.succ_pos _) hzero.symm, by omega, fun k hk hreached => ?_⟩
    refine hbefore (k + 1) (Nat.succ_lt_succ hk) ?_
    rw [List.take_succ_cons, hstep, hreached]
    omega
  · rintro ⟨hzero, hend, hbefore⟩
    refine ⟨by omega, fun k hk hreached => ?_⟩
    cases k with
    | zero => exact hzero hreached.symm
    | succ k =>
        rw [List.take_succ_cons, hstep] at hreached
        exact hbefore k (Nat.lt_of_succ_lt_succ hk) (by omega)

/-- A number that was reached at the beginning is not reached again at the end of a longer text. -/
theorem firstReached_zero_iff {quoted : Bool} {cs : List Char} :
    FirstReached 0 quoted cs ↔ cs = [] := by
  constructor
  · rintro ⟨-, hbefore⟩
    by_contra hne
    exact hbefore 0 (List.length_pos_iff.mpr hne) rfl
  · rintro rfl
    exact ⟨rfl, fun k hk => absurd hk (Nat.not_lt_zero k)⟩

/-- Behind an open parenthesis, the scan for its end succeeds exactly when the last character is the first
one at which nothing is open any more. -/
theorem closesAtEnd_iff_firstReached {p : Place} {cs : List Char} :
    closesAtEnd (p.depth + 1) p.quoted cs = true ↔ FirstReached (-(p.depth + 1)) p.quoted cs := by
  induction cs generalizing p with
  | nil =>
      refine ⟨fun h => (by cases h), fun h => ?_⟩
      have hzero : (0 : Int) = -(p.depth + 1) := h.1
      omega
  | cons c cs ih =>
      rw [closesAtEnd_cons]
      cases hstep : p.step c with
      | none =>
          obtain ⟨rfl, rfl⟩ := step_eq_none_iff.mp hstep
          change cs.isEmpty = true ↔ FirstReached (-1) false (')' :: cs)
          rw [firstReached_cons balance_close, List.isEmpty_iff]
          exact ⟨fun h => ⟨by decide, firstReached_zero_iff.mpr h⟩, fun h => firstReached_zero_iff.mp h.2⟩
      | some q =>
          have htarget : (-(p.depth + 1) : Int) - (q.depth - p.depth) = -(q.depth + 1) := by omega
          have hnonzero : (-(p.depth + 1) : Int) ≠ 0 := by omega
          rw [Option.elim_some, ih, firstReached_cons (balance_of_step hstep), htarget]
          exact ⟨fun h => ⟨hnonzero, h⟩, fun h => h.2⟩

/-- A text is enclosed exactly when it begins with `(`, ends with `)`, and the count first comes back to
zero at its last character. -/
theorem enclosedChars_iff {cs : List Char} :
    enclosedChars cs = true ↔ cs.head? = some '(' ∧ cs.getLast? = some ')' ∧ balance false cs = 0 ∧
      ∀ k, 0 < k → k < cs.length → balance false (cs.take k) ≠ 0 := by
  unfold enclosedChars
  simp only [Bool.and_eq_true, beq_iff_eq, and_assoc]
  refine and_congr_right fun hfirst => and_congr_right fun _ => ?_
  obtain ⟨rest, rfl⟩ := List.head?_eq_some_iff.mp hfirst
  have hstep : outside.step '(' = some ⟨1, false⟩ := rfl
  have hopen : ∀ rest, balance false ('(' :: rest) = 1 + balance false rest := balance_of_step hstep
  change closesAtEnd (outside.depth + 1) outside.quoted rest = true ↔ _
  rw [closesAtEnd_iff_firstReached]
  change FirstReached (-1) false rest ↔ _
  unfold FirstReached
  rw [hopen, List.length_cons]
  constructor
  · rintro ⟨hend, hbefore⟩
    refine ⟨by omega, fun k hpos hk => ?_⟩
    obtain ⟨k, rfl⟩ := Nat.exists_eq_succ_of_ne_zero hpos.ne'
    have hnot := hbefore k (Nat.lt_of_succ_lt_succ hk)
    rw [List.take_succ_cons, hopen]
    omega
  · rintro ⟨hend, hbefore⟩
    refine ⟨by omega, fun k hk => ?_⟩
    have hnot := hbefore (k + 1) (Nat.succ_pos k) (Nat.succ_lt_succ hk)
    rw [List.take_succ_cons, hopen] at hnot
    omega

/-- **A text is enclosed when its first parenthesis is closed by its last.** The test says so exactly of the
texts that begin with `(`, end with `)`, and in which the count of parentheses outside of quotes first comes
back to zero at the last character. These are the balanced texts in one pair of parentheses, so that every
balanced text becomes one when it is put in parentheses. -/
theorem isEnclosed_iff_first_return :
    (∀ sql : String, isEnclosed sql = true ↔
        sql.toList.head? = some '(' ∧ sql.toList.getLast? = some ')' ∧ balance false sql.toList = 0 ∧
          ∀ k, 0 < k → k < sql.toList.length → balance false (sql.toList.take k) ≠ 0) ∧
      (∀ sql : String, isEnclosed sql = true ↔
        ∃ inner : String, Balanced inner.toList ∧ sql = "(" ++ inner ++ ")") ∧
      ∀ sql : String, Balanced sql.toList → isEnclosed ("(" ++ sql ++ ")") = true := by
  have hgroup (sql : String) : isEnclosed sql = true ↔
      ∃ inner : String, Balanced inner.toList ∧ sql = "(" ++ inner ++ ")" := by
    rw [isEnclosed, enclosedChars_iff_isGroup]
    constructor
    · rintro ⟨inner, hinner, htext⟩
      refine ⟨String.ofList inner, ?_, String.toList_inj.mp ?_⟩
      · rwa [String.toList_ofList, ← closed_iff_balanced]
      · simp [htext]
    · rintro ⟨inner, hinner, rfl⟩
      exact ⟨inner.toList, closed_iff_balanced.mpr hinner, by simp⟩
  refine ⟨fun sql => enclosedChars_iff, hgroup, fun sql hsql => ?_⟩
  exact (hgroup _).mpr ⟨sql, hsql, rfl⟩

end Sql

namespace Sample

/-- Two groups with parentheses in their texts. -/
def twoGroups : String :=
  "(label = ')') OR (label = 'it''s (')"

/-- The two groups need parentheses around them and are enclosed once they have them. -/
theorem isEnclosed_iff_first_return_twoGroups :
    Sql.Balanced twoGroups.toList ∧ Sql.isEnclosed twoGroups = false ∧
      Sql.isEnclosed ("(" ++ twoGroups ++ ")") = true := by
  have balanced : Sql.Balanced twoGroups.toList := by decide
  exact ⟨balanced, rfl, Sql.isEnclosed_iff_first_return.2.2 twoGroups balanced⟩

end Sample

end RuleLang
