import RuleLang.Proofs.Sql.Column

/-!
# Reading texts back

A formula is what a rule of unary and binary operators says about its columns. Its text shows how the
formula is put together, but for one thing: `in` between two columns is written as `=` is, and without
parentheses of its own, so that a row of `=` does not show which of them comes first.

* `Formula`, `Formula.sql`: formulas and their texts.
* `Formula.sides`: the operands of a row of `=` outside of all parentheses.
* `Formula.IsGrouped`: formulas without such rows of more than two operands.
* `Formula.eq_of_sql_eq`: a grouped formula is the only one with its text.
* `Formula.sql_rotate`: which `=` of a row comes first does not show.
-/

namespace RuleLang

open Sql

/-- A formula of unary and binary operators. -/
inductive Formula (α : Type) where
  | column (x : α)
  | unary (op : UnaryOp) (operand : Formula α)
  | binary (op : BinaryOp) (left right : Formula α)

namespace Formula

variable {α : Type} (text : α → String)

/-- The text of a formula. -/
def sql : Formula α → String
  | column x => text x
  | unary op operand => sign op ++ "(" ++ sql operand ++ ")"
  | binary op left right => joined op (sql left) (sql right)

/-- Whether a formula is written without parentheses of its own. -/
def isWithin : Formula α → Bool
  | binary .within _ _ => true
  | _ => false

/-- No operand of `=` or of `in` is an `in`. -/
def IsGrouped : Formula α → Prop
  | column _ => True
  | unary _ operand => operand.IsGrouped
  | binary op left right =>
    (op = .eq ∨ op = .within → left.isWithin = false ∧ right.isWithin = false) ∧
      left.IsGrouped ∧ right.IsGrouped

/-- The operands of the row of `=` that a formula is outside of all parentheses. -/
def sides : Formula α → List (Formula α)
  | binary .within left right => sides left ++ sides right
  | f => [f]

/-- The characters of the text. -/
abbrev chars (f : Formula α) : List Char :=
  (f.sql text).toList

/-- What is written in front of the parentheses that a formula is enclosed in. -/
def opening? : Formula α → Option String
  | column _ => none
  | unary op _ => some (sign op)
  | binary .power _ _ => some "POWER"
  | binary .within _ _ => none
  | binary _ _ _ => some ""

/-- What is written behind the first of these parentheses. -/
def body : Formula α → List Char
  | column _ => []
  | unary _ operand => operand.chars text ++ [')']
  | binary .power left right => left.chars text ++ ',' :: (right.chars text ++ [')'])
  | binary op left right => left.chars text ++ ((between op).toList ++ (right.chars text ++ [')']))

variable {text} {f g l r : Formula α}

/-- A formula in parentheses is written as what opens them and what follows. -/
theorem chars_eq_of_opening? {front : String} (h : f.opening? = some front) :
    f.chars text = front.toList ++ '(' :: f.body text := by
  cases f with
  | column x => cases h
  | unary op operand =>
      cases h
      simp [chars, sql, body]
  | binary op left right =>
      cases op with
      | within => cases h
      | power =>
          cases h
          simp [chars, sql, joined, body]
      | _ =>
          cases h
          simp [chars, sql, joined, body]

/-- All that can open parentheses. -/
def openings : List String := ["+", "-", "~", "NOT ", "POWER", ""]

/-- What opens a formula is one of the openings. -/
theorem mem_openings {front : String} (h : f.opening? = some front) : front ∈ openings := by
  cases f with
  | column x => cases h
  | unary op operand =>
      cases h
      cases op <;> decide
  | binary op left right =>
      cases op with
      | within => cases h
      | _ =>
          cases h
          decide

/-! ### Rows of `=` -/

/-- A row has at least one operand. -/
theorem sides_ne_nil (f : Formula α) : f.sides ≠ [] := by
  fun_induction sides f with
  | case1 left right ihLeft ihRight => simp [ihLeft]
  | case2 f h => exact List.cons_ne_nil _ _

/-- A formula in parentheses is a row of itself alone. -/
theorem sides_of_not_isWithin (h : f.isWithin = false) : f.sides = [f] := by
  unfold sides
  split
  · cases h
  · rfl

/-- The operands of a row stand in parentheses. -/
theorem isWithin_of_mem_sides {x : Formula α} (h : x ∈ f.sides) : x.isWithin = false := by
  fun_induction sides f with
  | case1 left right ihLeft ihRight =>
      rcases List.mem_append.mp h with h | h
      · exact ihLeft h
      · exact ihRight h
  | case2 f hne =>
      rw [List.mem_singleton.mp h]
      unfold isWithin
      split
      · rename_i left right
        exact absurd rfl (hne left right)
      · rfl

/-- A row of operands, each behind a `=`. -/
def row (text : α → String) (fs : List (Formula α)) : List Char :=
  fs.flatMap fun f => '=' :: f.chars text

/-- The text of a formula is its row. -/
theorem equals_chars (f : Formula α) : '=' :: f.chars text = row text f.sides := by
  fun_induction sides f with
  | case1 left right ihLeft ihRight =>
      rw [row, List.flatMap_append]
      change _ = row text left.sides ++ row text right.sides
      rw [← ihLeft, ← ihRight]
      simp [chars, sql, joined]
  | case2 f h => simp [row]

/-- A formula without parentheses of its own is an `in`. -/
theorem exists_of_isWithin (h : f.isWithin) : ∃ l r, f = .binary .within l r := by
  unfold isWithin at h
  split at h
  · exact ⟨_, _, rfl⟩
  · cases h

/-- A row of one operand is that operand. -/
theorem eq_of_sides_eq_singleton {x : Formula α} (h : g.sides = [x]) : g = x := by
  cases hwithin : g.isWithin with
  | false =>
      rw [sides_of_not_isWithin hwithin] at h
      exact List.singleton_inj.mp h
  | true =>
      obtain ⟨l, r, rfl⟩ := exists_of_isWithin hwithin
      have hlength := congrArg List.length h
      rw [sides, List.length_append, List.length_singleton] at hlength
      have hleft := List.length_pos_iff.mpr (sides_ne_nil l)
      have hright := List.length_pos_iff.mpr (sides_ne_nil r)
      omega

/-- Two rows that are two operands together are one operand each. -/
theorem eq_of_append_eq_pair {x y : Formula α} (h : l.sides ++ r.sides = [x, y]) : l = x ∧ r = y := by
  have hleft := sides_ne_nil l
  have hright := sides_ne_nil r
  rcases List.append_eq_cons_iff.mp h with ⟨hnil, -⟩ | ⟨ls, hl, hrest⟩
  · exact absurd hnil hleft
  · rcases List.append_eq_cons_iff.mp hrest.symm with ⟨hnil, hr⟩ | ⟨rs, -, hrs⟩
    · rw [hnil] at hl
      exact ⟨eq_of_sides_eq_singleton hl, eq_of_sides_eq_singleton hr⟩
    · exact absurd (List.append_eq_nil_iff.mp hrs.symm).2 hright

/-- A formula whose row is that of a grouped formula is that formula. -/
theorem eq_of_sides_eq (hf : f.IsGrouped) (h : g.sides = f.sides) : g = f := by
  cases hwithin : f.isWithin with
  | false =>
      rw [sides_of_not_isWithin hwithin] at h
      exact eq_of_sides_eq_singleton h
  | true =>
      obtain ⟨l, r, rfl⟩ := exists_of_isWithin hwithin
      obtain ⟨hl, hr⟩ := hf.1 (.inr rfl)
      rw [sides, sides_of_not_isWithin hl, sides_of_not_isWithin hr] at h
      cases hg : g.isWithin with
      | false =>
          rw [sides_of_not_isWithin hg] at h
          cases h
      | true =>
          obtain ⟨l', r', rfl⟩ := exists_of_isWithin hg
          obtain ⟨rfl, rfl⟩ := eq_of_append_eq_pair h
          rfl

/-! ### Where operands end -/

/-- What may follow an operand: nothing, or a mark that opens no parentheses. -/
def IsStop (rest : List Char) : Prop :=
  ∀ c ∈ rest.head?, c ∈ marks ∧ c ≠ '('

/-- What may follow a whole row: what may follow an operand, but no further `=`. -/
def IsEnd (rest : List Char) : Prop :=
  IsStop rest ∧ '=' ∉ rest.head?

/-- A mark that neither opens parentheses nor goes on with the row ends the row. -/
theorem isEnd_cons {c : Char} (hmark : c ∈ marks) (hopen : c ≠ '(') (hequals : c ≠ '=')
    (rest : List Char) : IsEnd (c :: rest) := by
  refine ⟨?_, ?_⟩
  · intro d hd
    cases hd
    exact ⟨hmark, hopen⟩
  · intro h
    cases h
    exact hequals rfl

/-- A row may end with a closing parenthesis. -/
theorem isEnd_close (rest : List Char) : IsEnd (')' :: rest) :=
  isEnd_cons (by decide) (by decide) (by decide) rest

/-- A row may end with a comma. -/
theorem isEnd_comma (rest : List Char) : IsEnd (',' :: rest) :=
  isEnd_cons (by decide) (by decide) (by decide) rest

/-- A bare text ends where the next mark stands. -/
theorem takeWhile_of_isBare {word : String} (h : IsBare word) {rest : List Char} (hrest : IsStop rest) :
    (word.toList ++ rest).takeWhile (· ∉ marks) = word.toList := by
  have hword : ∀ c ∈ word.toList, decide (c ∉ marks) = true := by simpa using h.2.2
  rw [List.takeWhile_append_of_pos hword]
  cases rest with
  | nil => simp
  | cons c rest =>
      have hc : c ∈ marks := (hrest c (by simp)).1
      simp [hc]

/-- A bare text in front of a stop is not what opens parentheses. -/
theorem false_of_isBare {word front : String} (h : IsBare word) {rest inner : List Char}
    (hrest : IsStop rest) (hfront : front ∈ openings)
    (heq : word.toList ++ rest = front.toList ++ '(' :: inner) : False := by
  have hword := takeWhile_of_isBare h hrest
  rw [heq] at hword
  have hempty : word.toList ≠ [] := by simpa using h.1
  simp only [openings, List.mem_cons, List.not_mem_nil, or_false] at hfront
  rcases hfront with rfl | rfl | rfl | rfl | rfl | rfl
  · exact hempty hword.symm
  · exact hempty hword.symm
  · exact hempty hword.symm
  · exact h.2.1 (String.toList_inj.mp hword.symm)
  · have hpower : word.toList = "POWER".toList := hword.symm
    rw [hpower] at heq
    have hopen := List.append_cancel_left heq
    rw [hopen] at hrest
    exact (hrest '(' rfl).2 rfl
  · exact hempty hword.symm

/-- Bare texts in front of stops are read back. -/
theorem eq_of_isBare {word other : String} (h : IsBare word) (h' : IsBare other)
    {rest rest' : List Char} (hrest : IsStop rest) (hrest' : IsStop rest')
    (heq : word.toList ++ rest = other.toList ++ rest') : other = word ∧ rest' = rest := by
  have hword := takeWhile_of_isBare h hrest
  rw [heq, takeWhile_of_isBare h' hrest'] at hword
  obtain rfl := String.toList_inj.mp hword
  exact ⟨rfl, (List.append_cancel_left heq).symm⟩

/-! ### Operators between operands -/

/-- The operator with which a text begins. -/
def operator? : List Char → Option BinaryOp
  | '<' :: rest =>
    some (if rest.head? = some '<' then .shiftLeft else if rest.head? = some '=' then .lessEq else .less)
  | '>' :: rest =>
    some (if rest.head? = some '>' then
        if rest[1]? = some '>' then .shiftRightUnsigned else .shiftRight
      else if rest.head? = some '=' then .greaterEq else .greater)
  | '=' :: _ => some .eq
  | '!' :: _ => some .notEq
  | '+' :: _ => some .add
  | '-' :: _ => some .subtract
  | '*' :: _ => some .multiply
  | '/' :: _ => some .divide
  | '%' :: _ => some .modulo
  | ' ' :: '&' :: _ => some .bitAnd
  | ' ' :: '^' :: _ => some .bitXor
  | ' ' :: '|' :: _ => some .bitOr
  | _ => none

/-- The characters that could make another operator of the one in front of them. -/
def joints : List Char := ['=', '<', '>']

/-- An operator is read back in front of an operand. -/
theorem operator?_between {op : BinaryOp} (hop : IsInfix op) {c : Char} {cs : List Char}
    (hc : c ∉ joints) : operator? ((between op).toList ++ c :: cs) = some op := by
  simp only [joints, List.mem_cons, List.not_mem_nil, or_false, not_or] at hc
  cases op with
  | power => exact absurd rfl hop.1
  | within => exact absurd rfl hop.2
  | less => simp [between, infixText?, operator?, hc]
  | greater => simp [between, infixText?, operator?, hc]
  | shiftRight => simp [between, infixText?, operator?, hc]
  | _ => rfl

/-- What opens parentheses makes no other operator of the one before. -/
theorem exists_cons_of_mem_openings {front : String} (h : front ∈ openings) (inner : List Char) :
    ∃ c cs, front.toList ++ '(' :: inner = c :: cs ∧ c ∉ joints := by
  simp only [openings, List.mem_cons, List.not_mem_nil, or_false] at h
  rcases h with rfl | rfl | rfl | rfl | rfl | rfl
  · exact ⟨_, _, rfl, by decide⟩
  · exact ⟨_, _, rfl, by decide⟩
  · exact ⟨_, _, rfl, by decide⟩
  · exact ⟨_, _, rfl, by decide⟩
  · exact ⟨_, _, rfl, by decide⟩
  · exact ⟨_, _, rfl, by decide⟩

section Readable

variable (bare : ∀ x, IsBare (text x))

include bare

/-- The text of an operand makes no other operator of the one before. -/
theorem exists_chars_eq_cons (f : Formula α) : ∃ c cs, f.chars text = c :: cs ∧ c ∉ joints := by
  induction f with
  | column x =>
      cases hx : (text x).toList with
      | nil => exact absurd (String.toList_eq_nil_iff.mp hx) (bare x).1
      | cons c cs =>
          refine ⟨c, cs, hx, ?_⟩
          have hjoints : joints ⊆ marks := by decide
          intro hc
          exact (bare x).2.2 c (hx ▸ List.mem_cons_self) (hjoints hc)
  | unary op operand ih =>
      have hopening : (unary op operand).opening? = some (sign op) := rfl
      rw [chars_eq_of_opening? hopening]
      exact exists_cons_of_mem_openings (mem_openings hopening) _
  | binary op left right ihLeft ihRight =>
      cases hopening : (binary op left right).opening? with
      | some front =>
          rw [chars_eq_of_opening? hopening]
          exact exists_cons_of_mem_openings (mem_openings hopening) _
      | none =>
          obtain ⟨c, cs, hleft, hc⟩ := ihLeft
          have hwithin : op = .within := by
            cases op with
            | within => rfl
            | _ => cases hopening
          subst hwithin
          refine ⟨c, cs ++ '=' :: right.chars text, ?_, hc⟩
          rw [← List.cons_append, ← hleft]
          simp [chars, sql, joined]

/-! ### Reading operands back -/

omit bare in
/-- What opens parentheses is read back. -/
theorem eq_of_mem_openings {front front' : String} (h : front ∈ openings) (h' : front' ∈ openings)
    {inner inner' : List Char}
    (heq : front.toList ++ '(' :: inner = front'.toList ++ '(' :: inner') :
    front' = front ∧ inner' = inner := by
  have hfront {front : String} (h : front ∈ openings) (inner : List Char) :
      (front.toList ++ '(' :: inner).takeWhile (· ≠ '(') = front.toList := by
    simp only [openings, List.mem_cons, List.not_mem_nil, or_false] at h
    rcases h with rfl | rfl | rfl | rfl | rfl | rfl <;> rfl
  have htake := hfront h inner
  rw [heq, hfront h' inner'] at htake
  obtain rfl := String.toList_inj.mp htake
  exact ⟨rfl, (List.cons.inj (List.append_cancel_left heq)).2.symm⟩

omit bare in
/-- A formula that opens nothing and is no `in` is a column. -/
theorem exists_of_opening?_eq_none (h : g.opening? = none) (hwithin : g.isWithin = false) :
    ∃ x, g = column x := by
  cases g with
  | column x => exact ⟨x, rfl⟩
  | unary op operand => cases h
  | binary op left right =>
      cases op with
      | within => cases hwithin
      | _ => cases h

/-- The text of a formula is read back: no other formula that could stand in its place is written so. -/
def Readable (text : α → String) (f : Formula α) : Prop :=
  ∀ g : Formula α, g.isWithin = false → ∀ rest rest', IsStop rest → IsStop rest' →
    f.chars text ++ rest = g.chars text ++ rest' → g = f ∧ rest' = rest

/-- A column is read back if no two columns have the same text. -/
theorem readable_column (different : Function.Injective text) (x : α) : Readable text (column x) := by
  intro g hwithin rest rest' hrest hrest' heq
  cases hopening : g.opening? with
  | some front =>
      rw [chars_eq_of_opening? hopening, List.append_assoc, List.cons_append] at heq
      exact (false_of_isBare (bare x) hrest (mem_openings hopening) heq).elim
  | none =>
      obtain ⟨y, rfl⟩ := exists_of_opening?_eq_none hopening hwithin
      obtain ⟨htext, rfl⟩ := eq_of_isBare (bare x) (bare y) hrest hrest' heq
      rw [different htext]
      exact ⟨rfl, rfl⟩

/-- A formula in parentheses is read back if what is in them is. -/
theorem readable_of_opening? {front : String} (hf : f.opening? = some front)
    (h : ∀ g : Formula α, g.opening? = some front → ∀ rest rest',
      f.body text ++ rest = g.body text ++ rest' → g = f ∧ rest' = rest) : Readable text f := by
  intro g hwithin rest rest' hrest hrest' heq
  rw [chars_eq_of_opening? hf, List.append_assoc, List.cons_append] at heq
  cases hopening : g.opening? with
  | some front' =>
      rw [chars_eq_of_opening? hopening, List.append_assoc, List.cons_append] at heq
      obtain ⟨rfl, hbody⟩ := eq_of_mem_openings (mem_openings hf) (mem_openings hopening) heq
      exact h g hopening rest rest' hbody.symm
  | none =>
      obtain ⟨x, rfl⟩ := exists_of_opening?_eq_none hopening hwithin
      exact (false_of_isBare (bare x) hrest' (mem_openings hf) heq.symm).elim

omit bare in
/-- A row is read back if its operands are. -/
theorem eq_of_rows {fs gs : List (Formula α)} (hfs : ∀ f ∈ fs, Readable text f)
    (hgs : ∀ g ∈ gs, g.isWithin = false) {rest rest' : List Char} (hrest : IsEnd rest)
    (hrest' : IsEnd rest') (heq : row text fs ++ rest = row text gs ++ rest') :
    gs = fs ∧ rest' = rest := by
  have stop {fs : List (Formula α)} {rest : List Char} (hrest : IsEnd rest) :
      IsStop (row text fs ++ rest) := by
    cases fs with
    | nil => exact hrest.1
    | cons f fs =>
        intro c hc
        cases hc
        decide
  induction fs generalizing gs with
  | nil =>
      cases gs with
      | nil => exact ⟨rfl, heq.symm⟩
      | cons g gs =>
          have hequals : rest.head? = some '=' := congrArg List.head? heq
          exact absurd hequals hrest.2
  | cons f fs ih =>
      rw [List.forall_mem_cons] at hfs
      cases gs with
      | nil =>
          have hequals : rest'.head? = some '=' := (congrArg List.head? heq).symm
          exact absurd hequals hrest'.2
      | cons g gs =>
          rw [List.forall_mem_cons] at hgs
          have hoperands : f.chars text ++ (row text fs ++ rest) =
              g.chars text ++ (row text gs ++ rest') := by simpa [row] using heq
          obtain ⟨rfl, htail⟩ := hfs.1 g hgs.1 _ _ (stop hrest) (stop hrest') hoperands
          obtain ⟨rfl, rfl⟩ := ih hfs.2 hgs.2 htail.symm
          exact ⟨rfl, rfl⟩

omit bare in
/-- A grouped formula is read back if the operands of its row are. -/
theorem eq_of_chars_append (hf : f.IsGrouped) (hsides : ∀ x ∈ f.sides, Readable text x)
    {rest rest' : List Char} (hrest : IsEnd rest) (hrest' : IsEnd rest')
    (heq : f.chars text ++ rest = g.chars text ++ rest') : g = f ∧ rest' = rest := by
  have hrows : row text f.sides ++ rest = row text g.sides ++ rest' := by
    rw [← equals_chars, ← equals_chars, List.cons_append, List.cons_append, heq]
  obtain ⟨hsides', htail⟩ := eq_of_rows hsides (fun x hx => isWithin_of_mem_sides hx) hrest hrest' hrows
  exact ⟨eq_of_sides_eq hf hsides', htail⟩

/-! ### Formulas in parentheses -/

omit bare in
/-- A formula that opens with the sign of an operator is that operator in front of an operand. -/
theorem exists_of_opening?_eq_sign {op : UnaryOp} (h : g.opening? = some (sign op)) :
    ∃ operand, g = unary op operand := by
  have hword : "POWER" ≠ sign op ∧ "" ≠ sign op := by cases op <;> decide
  cases g with
  | column x => cases h
  | unary op' operand =>
      have hsign : sign op' = sign op := Option.some.inj h
      have hop : op' = op := by
        cases op' <;> cases op <;> first | rfl | exact absurd hsign (by decide)
      exact ⟨operand, by rw [hop]⟩
  | binary op' left right =>
      cases op' with
      | within => cases h
      | power => exact absurd (Option.some.inj h) hword.1
      | _ => exact absurd (Option.some.inj h) hword.2

omit bare in
/-- A formula that opens as a power is one. -/
theorem exists_of_opening?_eq_power (h : g.opening? = some "POWER") :
    ∃ left right, g = binary .power left right := by
  cases g with
  | column x => cases h
  | unary op operand => exact absurd (Option.some.inj h) (by cases op <;> decide)
  | binary op left right =>
      cases op with
      | power => exact ⟨left, right, rfl⟩
      | within => cases h
      | _ => exact absurd (Option.some.inj h) (by decide)

omit bare in
/-- A formula that opens with nothing but a parenthesis is an operator between operands. -/
theorem exists_of_opening?_eq_empty (h : g.opening? = some "") :
    ∃ op left right, g = binary op left right ∧ IsInfix op := by
  cases g with
  | column x => cases h
  | unary op operand => exact absurd (Option.some.inj h) (by cases op <;> decide)
  | binary op left right =>
      refine ⟨op, left, right, rfl, ?_, ?_⟩
      · rintro rfl
        exact absurd (Option.some.inj h) (by decide)
      · rintro rfl
        cases h

/-- The row of `=` with which the inside of parentheses begins. -/
def lead (op : BinaryOp) (left right : Formula α) : Formula α :=
  if op = .eq then binary .within left right else left

/-- What follows that row, up to the end of the parentheses. -/
def trail (text : α → String) (op : BinaryOp) (right : Formula α) : List Char :=
  if op = .eq then [')'] else (between op).toList ++ (right.chars text ++ [')'])

omit bare in
/-- The inside of the parentheses is a row of `=` and what follows it. -/
theorem body_eq {op : BinaryOp} (hop : IsInfix op) :
    (binary op l r).body text = (lead op l r).chars text ++ trail text op r := by
  unfold lead trail
  by_cases heq : op = .eq
  · subst heq
    simp [body, chars, sql, joined, between, infixText?]
  · rw [if_neg heq, if_neg heq]
    cases op with
    | power => exact absurd rfl hop.1
    | within => exact absurd rfl hop.2
    | _ => rfl

omit bare in
/-- What follows the row ends it. -/
theorem isEnd_trail {op : BinaryOp} (hop : IsInfix op)
    (rest : List Char) : IsEnd (trail text op r ++ rest) := by
  unfold trail
  by_cases heq : op = .eq
  · rw [if_pos heq]
    exact isEnd_close rest
  · rw [if_neg heq]
    have hbetween : ∃ c cs, (between op).toList = c :: cs ∧ c ∈ marks ∧ c ≠ '(' ∧ c ≠ '=' := by
      cases op with
      | power => exact absurd rfl hop.1
      | within => exact absurd rfl hop.2
      | eq => exact absurd rfl heq
      | _ => exact ⟨_, _, rfl, by decide, by decide, by decide⟩
    obtain ⟨c, cs, hcons, hmark, hopen, hequals⟩ := hbetween
    rw [hcons]
    exact isEnd_cons hmark hopen hequals _

/-- Which operator stands between the operands shows in what follows the row. -/
theorem operator?_trail {op : BinaryOp} (hop : IsInfix op)
    (rest : List Char) :
    operator? (trail text op r ++ rest) = if op = .eq then none else some op := by
  unfold trail
  by_cases heq : op = .eq
  · rw [if_pos heq, if_pos heq]
    rfl
  · obtain ⟨c, cs, hright, hc⟩ := exists_chars_eq_cons bare r
    rw [if_neg heq, if_neg heq, hright, List.append_assoc, List.cons_append, List.cons_append]
    exact operator?_between hop hc

/-- What follows the row shows which operator is between the operands. -/
theorem eq_of_trail_eq {op op' : BinaryOp} (hop : IsInfix op) (hop' : IsInfix op')
    {rest rest' : List Char}
    (heq : trail text op' r ++ rest' = trail text op l ++ rest) : op' = op := by
  have hoperator := congrArg operator? heq
  rw [operator?_trail bare hop', operator?_trail bare hop] at hoperator
  by_cases heq' : op' = .eq
  · by_cases heq : op = .eq
    · rw [heq, heq']
    · simp [heq, heq'] at hoperator
  · by_cases heq : op = .eq
    · simp [heq, heq'] at hoperator
    · simpa [heq, heq'] using hoperator

omit bare in
/-- The row at the front of a grouped formula is grouped. -/
theorem isGrouped_lead {op : BinaryOp} (hf : (binary op l r).IsGrouped) : (lead op l r).IsGrouped := by
  unfold lead
  by_cases heq : op = .eq
  · rw [if_pos heq]
    exact ⟨fun _ => hf.1 (.inl heq), hf.2⟩
  · rw [if_neg heq]
    exact hf.2.1

omit bare in
/-- The operands of that row are read back if those of both sides are. -/
theorem readable_of_mem_lead {op : BinaryOp} (hl : ∀ x ∈ l.sides, Readable text x)
    (hr : ∀ x ∈ r.sides, Readable text x) : ∀ x ∈ (lead op l r).sides, Readable text x := by
  unfold lead
  by_cases heq : op = .eq
  · rw [if_pos heq, sides, List.forall_mem_append]
    exact ⟨hl, hr⟩
  · rw [if_neg heq]
    exact hl

/-- An operator in front of an operand is read back if the operand is. -/
theorem readable_unary {op : UnaryOp} (hf : f.IsGrouped) (hsides : ∀ x ∈ f.sides, Readable text x) :
    Readable text (unary op f) := by
  refine readable_of_opening? bare rfl ?_
  intro g hg rest rest' heq
  obtain ⟨operand, rfl⟩ := exists_of_opening?_eq_sign hg
  rw [body, body, List.append_assoc, List.append_assoc] at heq
  obtain ⟨rfl, htail⟩ := eq_of_chars_append hf hsides (isEnd_close rest) (isEnd_close rest') heq
  exact ⟨rfl, (List.cons.inj htail).2⟩

/-- A power is read back if its operands are. -/
theorem readable_power (hf : (binary .power l r).IsGrouped) (hl : ∀ x ∈ l.sides, Readable text x)
    (hr : ∀ x ∈ r.sides, Readable text x) : Readable text (binary .power l r) := by
  refine readable_of_opening? bare rfl ?_
  intro g hg rest rest' heq
  obtain ⟨left, right, rfl⟩ := exists_of_opening?_eq_power hg
  simp only [body, List.append_assoc, List.cons_append, List.nil_append] at heq
  obtain ⟨rfl, htail⟩ := eq_of_chars_append hf.2.1 hl (isEnd_comma _) (isEnd_comma _) heq
  have hright := (List.cons.inj htail).2.symm
  obtain ⟨rfl, hend⟩ := eq_of_chars_append hf.2.2 hr (isEnd_close rest) (isEnd_close rest') hright
  exact ⟨rfl, (List.cons.inj hend).2⟩

/-- Of an operator in the middle, the row in front is read first, then the operator, then the rest. -/
theorem readable_infix {op : BinaryOp} (hop : IsInfix op)
    (hf : (binary op l r).IsGrouped) (hl : ∀ x ∈ l.sides, Readable text x)
    (hr : ∀ x ∈ r.sides, Readable text x) : Readable text (binary op l r) := by
  have hopening : (binary op l r).opening? = some "" := by
    cases op with
    | power => exact absurd rfl hop.1
    | within => exact absurd rfl hop.2
    | _ => rfl
  refine readable_of_opening? bare hopening ?_
  intro g hg rest rest' heq
  obtain ⟨op', left, right, rfl, hop'⟩ := exists_of_opening?_eq_empty hg
  rw [body_eq hop, body_eq hop', List.append_assoc, List.append_assoc] at heq
  obtain ⟨hlead, htrail⟩ := eq_of_chars_append (isGrouped_lead hf) (readable_of_mem_lead hl hr)
    (isEnd_trail hop rest) (isEnd_trail hop' rest') heq
  obtain rfl := eq_of_trail_eq bare hop hop' htrail
  by_cases hequals : op' = .eq
  · subst hequals
    obtain ⟨-, rfl, rfl⟩ := Formula.binary.inj hlead
    exact ⟨rfl, (List.cons.inj htrail).2⟩
  · rw [lead, if_neg hequals, lead, if_neg hequals] at hlead
    rw [trail, if_neg hequals, trail, if_neg hequals, List.append_assoc, List.append_assoc,
      List.append_assoc, List.append_assoc] at htrail
    have hright := (List.append_cancel_left htrail).symm
    obtain ⟨rfl, hend⟩ := eq_of_chars_append hf.2.2 hr (isEnd_close rest) (isEnd_close rest') hright
    rw [hlead]
    exact ⟨rfl, (List.cons.inj hend).2⟩

/-- The operands of the row of a grouped formula are read back. -/
theorem readable_of_mem_sides (different : Function.Injective text) (hf : f.IsGrouped) :
    ∀ x ∈ f.sides, Readable text x := by
  induction f with
  | column x => exact List.forall_mem_singleton.mpr (readable_column bare different x)
  | unary op operand ih =>
      have hoperand : operand.IsGrouped := hf
      exact List.forall_mem_singleton.mpr (readable_unary bare hoperand (ih hoperand))
  | binary op left right ihLeft ihRight =>
      have hl := ihLeft hf.2.1
      have hr := ihRight hf.2.2
      by_cases hwithin : op = .within
      · subst hwithin
        rw [sides, List.forall_mem_append]
        exact ⟨hl, hr⟩
      · have hside : (binary op left right).isWithin = false := by
          cases op with
          | within => exact absurd rfl hwithin
          | _ => rfl
        rw [sides_of_not_isWithin hside, List.forall_mem_singleton]
        by_cases hpower : op = .power
        · subst hpower
          exact readable_power bare hf hl hr
        · exact readable_infix bare ⟨hpower, hwithin⟩ hf hl hr

/-- A grouped formula is the only one with its text. -/
theorem eq_of_sql_eq (different : Function.Injective text) (hf : f.IsGrouped)
    (h : g.sql text = f.sql text) : g = f := by
  have isEnd_nil : IsEnd [] := ⟨by rintro c ⟨⟩, by rintro ⟨⟩⟩
  have hchars : f.chars text ++ [] = g.chars text ++ [] := by rw [chars, chars, h]
  exact (eq_of_chars_append hf (readable_of_mem_sides bare different hf) isEnd_nil isEnd_nil hchars).1

end Readable

/-! ### Formulas that share their text -/

/-- Of an `in` and the `=` or `in` next to it, the text does not show which comes first. -/
theorem sql_rotate {op : BinaryOp} (h : op = .eq ∨ op = .within) (x y z : Formula α) :
    (binary op x (binary .within y z)).sql text = (binary op (binary .within x y) z).sql text := by
  rcases h with rfl | rfl <;> simp [sql, joined, between, infixText?, String.append_assoc]

/-- These are different formulas. -/
theorem rotate_ne (op : BinaryOp) (x y z : Formula α) :
    binary op x (binary .within y z) ≠ binary op (binary .within x y) z := by
  intro heq
  have hsize := congrArg sizeOf (Formula.binary.inj heq).2.1
  simp at hsize
  omega

end Formula

end RuleLang
