import RuleLang.Proofs.Sql.Closed

/-!
# Taking a chain apart

A chain is written as the texts of its operands with a separator between them, each of them in one pair
of parentheses. Cut at every separator outside of parentheses and quotes, its text falls into these
groups again, whatever the operands are: a separator inside an operand stands inside its group.

* `Sql.IsGroup`: texts that are one pair of parentheses around a closed text.
* `Sql.enclosedChars_iff_isGroup`: the test for such texts finds all of them and no others.
* `Sql.pieces?`: the pieces of a text between the separators outside of parentheses and quotes.
* `Sql.pieces?_intercalate`: groups with a separator between them fall into these groups.
* `Sql.pieces?_logical`: the pieces of a chain are its operands, as groups.
-/

namespace RuleLang

namespace Sql

open Place

/-! ### Groups -/

/-- One pair of parentheses around a closed text. -/
def IsGroup (cs : List Char) : Prop :=
  ∃ inner, Closed inner ∧ cs = '(' :: inner ++ [')']

/-- The one character that may not follow a place is a parenthesis that closes none. -/
theorem step_eq_none_iff {p : Place} {c : Char} : p.step c = none ↔ c = ')' ∧ p = outside := by
  obtain ⟨depth, quoted⟩ := p
  constructor
  · intro h
    grind [step, outside]
  · rintro ⟨rfl, hplace⟩
    cases hplace
    rfl

/-- Behind an open parenthesis, the scan for its end takes the steps that every scan takes, until it
meets a parenthesis that closes nothing else. -/
theorem closesAtEnd_cons (p : Place) (c : Char) (cs : List Char) :
    closesAtEnd (p.depth + 1) p.quoted (c :: cs) =
      (p.step c).elim cs.isEmpty fun q => closesAtEnd (q.depth + 1) q.quoted cs := by
  obtain ⟨depth, quoted⟩ := p
  unfold step
  rw [closesAtEnd]
  by_cases hquote : c = '\''
  · rw [if_pos hquote, if_pos hquote]
    rfl
  · rw [if_neg hquote, if_neg hquote]
    cases quoted with
    | true => rfl
    | false =>
        by_cases hopen : c = '('
        · rw [hopen]
          rfl
        · by_cases hclose : c = ')'
          · rw [hclose]
            cases depth <;> rfl
          · simp [hopen, hclose]

/-- Behind an open parenthesis, the scan for its end succeeds exactly when the last character closes it
and everything in front of that is closed. -/
theorem closesAtEnd_iff {p : Place} {cs : List Char} :
    closesAtEnd (p.depth + 1) p.quoted cs = true ↔
      ∃ inner, cs = inner ++ [')'] ∧ p.scan inner = some outside := by
  induction cs generalizing p with
  | nil => simp [closesAtEnd]
  | cons c cs ih =>
      rw [closesAtEnd_cons]
      cases hstep : p.step c with
      | none =>
          obtain ⟨rfl, rfl⟩ := step_eq_none_iff.mp hstep
          rw [Option.elim_none, List.isEmpty_iff]
          constructor
          · rintro rfl
            exact ⟨[], rfl, rfl⟩
          · rintro ⟨inner, htext, hinner⟩
            cases inner with
            | nil => exact (List.cons.inj htext).2
            | cons first inner =>
                obtain ⟨rfl, -⟩ := List.cons.inj htext
                rw [scan_cons, hstep] at hinner
                cases hinner
      | some q =>
          rw [Option.elim_some, ih]
          constructor
          · rintro ⟨inner, rfl, hinner⟩
            exact ⟨c :: inner, rfl, by rw [scan_cons, hstep, Option.bind_some, hinner]⟩
          · rintro ⟨inner, htext, hinner⟩
            cases inner with
            | nil =>
                obtain ⟨rfl, -⟩ := List.cons.inj htext
                rw [step_eq_none_iff.mpr ⟨rfl, Option.some.inj hinner⟩] at hstep
                cases hstep
            | cons first inner =>
                obtain ⟨rfl, rfl⟩ := List.cons.inj htext
                rw [scan_cons, hstep, Option.bind_some] at hinner
                exact ⟨inner, rfl, hinner⟩

/-- A text is enclosed exactly when it is one group. -/
theorem enclosedChars_iff_isGroup {cs : List Char} : enclosedChars cs = true ↔ IsGroup cs := by
  unfold enclosedChars
  simp only [Bool.and_eq_true, beq_iff_eq]
  constructor
  · rintro ⟨⟨hfirst, -⟩, hcloses⟩
    obtain ⟨rest, rfl⟩ := List.head?_eq_some_iff.mp hfirst
    obtain ⟨inner, rfl, hinner⟩ := (closesAtEnd_iff (p := outside)).mp hcloses
    exact ⟨inner, hinner, rfl⟩
  · rintro ⟨inner, hinner, rfl⟩
    refine ⟨⟨rfl, List.getLast?_concat⟩, ?_⟩
    exact (closesAtEnd_iff (p := outside)).mpr ⟨inner, rfl, hinner⟩

instance (cs : List Char) : Decidable (IsGroup cs) :=
  decidable_of_iff _ enclosedChars_iff_isGroup

/-- A closed text becomes a group by a pair of parentheses, if it is none already. -/
theorem enclose_eq (sql : String) :
    IsGroup sql.toList ∧ enclose sql = sql ∨ ¬ IsGroup sql.toList ∧ enclose sql = "(" ++ sql ++ ")" := by
  unfold enclose isEnclosed
  by_cases h : IsGroup sql.toList
  · exact .inl ⟨h, if_pos (enclosedChars_iff_isGroup.mpr h)⟩
  · exact .inr ⟨h, if_neg (mt enclosedChars_iff_isGroup.mp h)⟩

/-- An enclosed text is a group. -/
theorem isGroup_enclose {sql : String} (h : Closed sql.toList) : IsGroup (enclose sql).toList := by
  rcases enclose_eq sql with ⟨hgroup, heq⟩ | ⟨-, heq⟩
  · rwa [heq]
  · exact ⟨sql.toList, h, by rw [heq]; simp⟩

/-! ### Pieces -/

/-- The pieces of the rest of a text between the separators outside of parentheses and quotes; none if
the text does not end outside. -/
def Place.pieces (sep : List Char) (p : Place) : List Char → Option (List (List Char))
  | [] => if p = outside then some [[]] else none
  | c :: cs =>
    if p = outside ∧ sep ≠ [] ∧ sep <+: c :: cs then
      (pieces sep outside ((c :: cs).drop sep.length)).map ([] :: ·)
    else (p.step c).bind fun q => (pieces sep q cs).map (List.modifyHead (c :: ·))
termination_by cs => cs.length
decreasing_by
  · rename_i hcut
    have hsep := List.length_pos_iff.mpr hcut.2.1
    simp only [List.length_drop, List.length_cons]
    omega
  · simp

/-- The pieces of a text between the separators outside of parentheses and quotes, from left to right. -/
def pieces? (sep sql : String) : Option (List String) :=
  (outside.pieces sep.toList sql.toList).map (List.map String.ofList)

namespace Place

variable {sep as bs : List Char} {p q : Place}

/-- A character at which no separator begins belongs to the piece that stands there. -/
theorem pieces_cons {c : Char} {cs : List Char} (h : p ≠ outside ∨ sep.head? ≠ some c) :
    p.pieces sep (c :: cs) =
      (p.step c).bind fun q => (q.pieces sep cs).map (List.modifyHead ([c] ++ ·)) := by
  rw [pieces, if_neg]
  · rfl
  · rintro ⟨hplace, hsep, hstarts⟩
    obtain ⟨first, rest, rfl⟩ := List.exists_cons_of_ne_nil hsep
    obtain ⟨rfl, -⟩ := List.cons_prefix_cons.mp hstarts
    rcases h with h | h
    · exact h hplace
    · exact h rfl

/-- A separator outside of parentheses and quotes ends a piece. -/
theorem pieces_separator (hsep : sep ≠ []) :
    outside.pieces sep (sep ++ bs) = (outside.pieces sep bs).map ([] :: ·) := by
  obtain ⟨first, rest, rfl⟩ := List.exists_cons_of_ne_nil hsep
  have hstarts : first :: rest <+: first :: (rest ++ bs) := ⟨bs, rfl⟩
  rw [List.cons_append, pieces, if_pos ⟨rfl, hsep, hstarts⟩, ← List.cons_append, List.drop_left]

/-- What stands in front of a piece part by part stands in front of it together. -/
theorem map_modifyHead_append {found : Option (List (List Char))} :
    (found.map (List.modifyHead (bs ++ ·))).map (List.modifyHead (as ++ ·)) =
      found.map (List.modifyHead (as ++ bs ++ ·)) := by
  have hfront : (fun piece : List Char => as ++ (bs ++ piece)) = (as ++ bs ++ ·) := by
    funext piece
    rw [List.append_assoc]
  rw [Option.map_map]
  refine congrArg (found.map ·) (funext fun pieces => ?_)
  rw [Function.comp_apply, List.modifyHead_modifyHead]
  exact congrArg (List.modifyHead · pieces) hfront

/-- Inside parentheses, a text goes on in the same piece. -/
theorem pieces_inside {depth : Nat} (h : p.scan as = some q) (hdepth : 0 < depth) :
    (p.inside depth).pieces sep (as ++ bs) =
      ((q.inside depth).pieces sep bs).map (List.modifyHead (as ++ ·)) := by
  induction as generalizing p with
  | nil =>
      rw [scan_nil, Option.some.injEq] at h
      rw [h, List.nil_append]
      cases (q.inside depth).pieces sep bs with
      | none => rfl
      | some pieces => cases pieces <;> rfl
  | cons c cs ih =>
      rw [scan_cons] at h
      obtain ⟨next, hnext, h⟩ := Option.bind_eq_some_iff.mp h
      have hinside : p.inside depth ≠ outside := by
        intro heq
        have hzero : p.depth + depth = 0 := congrArg Place.depth heq
        omega
      rw [List.cons_append, pieces_cons (.inl hinside), step_inside depth hnext, Option.bind_some, ih h,
        map_modifyHead_append, List.singleton_append]

/-- No piece ends inside a group. -/
theorem pieces_group (hsep : sep.head? ≠ some '(') (h : IsGroup as) :
    outside.pieces sep (as ++ bs) = (outside.pieces sep bs).map (List.modifyHead (as ++ ·)) := by
  obtain ⟨inner, hinner, rfl⟩ := h
  have hinside : outside.inside 1 ≠ outside := by decide
  have hclosed : (outside.inside 1).step ')' = some outside := rfl
  have hclose : (outside.inside 1).pieces sep ([')'] ++ bs) =
      (outside.pieces sep bs).map (List.modifyHead ([')'] ++ ·)) := by
    rw [List.singleton_append, pieces_cons (.inl hinside), hclosed, Option.bind_some]
  rw [List.cons_append, List.cons_append, pieces_cons (.inr hsep), step_open, Option.bind_some,
    List.append_assoc, pieces_inside hinner Nat.one_pos, hclose, map_modifyHead_append,
    map_modifyHead_append, List.singleton_append, List.cons_append]

/-- Groups with a separator between them fall into these groups. -/
theorem pieces_intercalate (hsep : sep ≠ []) (hopen : sep.head? ≠ some '(')
    {groups : List (List Char)} (hne : groups ≠ []) (h : ∀ group ∈ groups, IsGroup group) :
    outside.pieces sep (sep.intercalate groups) = some groups := by
  induction groups with
  | nil => exact absurd rfl hne
  | cons group rest ih =>
      rw [List.forall_mem_cons] at h
      cases rest with
      | nil =>
          have hlast : outside.pieces sep (group ++ []) =
              (outside.pieces sep []).map (List.modifyHead (group ++ ·)) := pieces_group hopen h.1
          rw [List.append_nil, pieces, if_pos rfl] at hlast
          simpa using hlast
      | cons next rest =>
          rw [List.intercalate_cons_cons, List.append_assoc, pieces_group hopen h.1,
            pieces_separator hsep, ih (List.cons_ne_nil _ _) h.2]
          simp

end Place

/-- Texts that are groups fall apart again at a separator between them. -/
theorem pieces?_intercalate {sep : String} (hsep : sep ≠ "") (hopen : sep.toList.head? ≠ some '(')
    {groups : List String} (hne : groups ≠ []) (h : ∀ group ∈ groups, IsGroup group.toList) :
    pieces? sep (sep.intercalate groups) = some groups := by
  have hchars : ∀ group ∈ groups.map String.toList, IsGroup group := List.forall_mem_map.mpr h
  rw [pieces?, String.toList_intercalate, pieces_intercalate (mt String.toList_eq_nil_iff.mp hsep) hopen
    (mt List.map_eq_nil_iff.mp hne) hchars, Option.map_some, List.map_map]
  simp [Function.comp_def]

/-- **A chain can be taken apart again.** Cut at the separators outside of parentheses and quotes, the
text of a chain of closed operands falls into as many pieces as there are operands. Each piece is one
group: the operand itself if that is a group, and else the operand in a pair of parentheses. -/
theorem pieces?_logical (op : LogicalOp) {operands : List Fragment} (two : 2 ≤ operands.length)
    (closed : ∀ f ∈ operands, Closed f.toSql.toList) :
    ∃ groups, pieces? (separator op) (logical op operands).toSql = some groups ∧
      List.Forall₂ (fun f group => IsGroup group.toList ∧
        (IsGroup f.toSql.toList ∧ group = f.toSql ∨
          ¬ IsGroup f.toSql.toList ∧ group = "(" ++ f.toSql ++ ")")) operands groups := by
  have hsql : (logical op operands).toSql =
      (separator op).intercalate (operands.map fun f => enclose f.toSql) := by
    match operands, two with
    | _ :: _ :: _, _ => rfl
  refine ⟨operands.map fun f => enclose f.toSql, ?_, ?_⟩
  · rw [hsql]
    refine pieces?_intercalate (by cases op <;> decide) (by cases op <;> decide) ?_ ?_
    · rw [ne_eq, List.map_eq_nil_iff]
      rintro rfl
      exact absurd two (by decide)
    · exact List.forall_mem_map.mpr fun f hf => isGroup_enclose (closed f hf)
  · rw [List.forall₂_map_right_iff, List.forall₂_same]
    exact fun f hf => ⟨isGroup_enclose (closed f hf), enclose_eq f.toSql⟩

end Sql

namespace Sample

open Sql

/-- Operands with the separator inside a string and between groups of their own, a quote inside a string,
and a list. -/
def hostileOperands : List Fragment :=
  [.text "(t.type=') OR (')", .text "(t.amount>'1') OR (t.amount<'0')", .list ["1", "'O''Brien'"],
    .text "t.country='DE OR FR'"]

/-- The four operands are found again, two of them with parentheses added. -/
theorem pieces?_logical_hostileOperands :
    2 ≤ hostileOperands.length ∧ (∀ f ∈ hostileOperands, Closed f.toSql.toList) ∧
      pieces? (separator .or) (logical .or hostileOperands).toSql =
        some ["(t.type=') OR (')", "((t.amount>'1') OR (t.amount<'0'))", "(1,'O''Brien')",
          "(t.country='DE OR FR')"] := by
  have closed : ∀ f ∈ hostileOperands, Closed f.toSql.toList := by
    refine List.forall_mem_cons.mpr ⟨by decide, List.forall_mem_cons.mpr ⟨by decide, ?_⟩⟩
    exact List.forall_mem_cons.mpr ⟨by decide, List.forall_mem_singleton.mpr (by decide)⟩
  obtain ⟨groups, hpieces, hgroups⟩ := pieces?_logical .or (by decide) closed
  refine ⟨by decide, closed, hpieces.trans (congrArg some ?_)⟩
  obtain _ | ⟨⟨-, first⟩, _ | ⟨⟨-, second⟩, _ | ⟨⟨-, third⟩, _ | ⟨⟨-, fourth⟩, _ | _⟩⟩⟩⟩ := hgroups
  obtain ⟨-, rfl⟩ := first.resolve_right fun h => h.1 (by decide)
  obtain ⟨-, rfl⟩ := second.resolve_left fun h => absurd h.1 (by decide)
  obtain ⟨-, rfl⟩ := third.resolve_right fun h => h.1 (by decide)
  obtain ⟨-, rfl⟩ := fourth.resolve_left fun h => absurd h.1 (by decide)
  rfl

end Sample

end RuleLang
