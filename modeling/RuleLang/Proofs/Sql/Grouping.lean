import RuleLang.Proofs.Optimizer.Levels
import RuleLang.Proofs.Sql.Looseness
import RuleLang.Proofs.Sql.Reading
import RuleLang.Sample

/-!
# The grouping of compiled rules

A rule of unary, binary and logical operators over columns compiles to one text, in which the texts of
operands are put next to the operators around them. An operand that is written with an operator as loose
as a comparison, and without parentheses, may be torn apart there: `in` between two columns, `!` and chains
are written so, and only chains put such operands in parentheses.

* `Sql.OverColumns`: trees of unary, binary and logical operators over columns.
* `Node.bindsLoosely`: the trees whose text holds a loose operator outside of all parentheses.
* `Sql.OverColumns.exists_compiled`: a tree over columns compiles to a text that is loose exactly when the
  tree binds loosely.
* `Sql.formula?`: the formula of a tree without chains, whose text is what the tree compiles to.
* `Sql.formula?_eq_of_compileToSql_eq`, `Sql.exists_compileToSql_eq`: which rules without chains can be
  told apart by their text.
* `Sql.grouping_of_compileToSql`: both for one rule, which operands keep together and whether its text is
  that of another rule.
-/

namespace RuleLang

open Node (Subtree)

/-- The text of a tree of operators holds an operator as loose as a comparison outside of all parentheses:
that of `in`, of `!`, or of a chain. A chain of one operand is that operand. -/
def Node.bindsLoosely : Node → Bool
  | unary _ op _ => op = .not
  | binary _ op _ _ => op = .within
  | logical _ _ [operand] => bindsLoosely operand
  | logical _ _ operands => 2 ≤ operands.length
  | _ => false

namespace Sql

/-- Trees of unary, binary and logical operators over columns. -/
inductive OverColumns (c : Compiler) : Node → Prop
  | column {node : Node} {x : Column c.schema} (h : column? c node = some x) : OverColumns c node
  | unary {w : Weight} {op : UnaryOp} {operand : Node} (h : OverColumns c operand) :
      OverColumns c (.unary w op operand)
  | binary {w : Weight} {op : BinaryOp} {left right : Node} (hleft : OverColumns c left)
      (hright : OverColumns c right) : OverColumns c (.binary w op left right)
  | logical {w : Weight} {op : LogicalOp} {operands : List Node}
      (h : ∀ operand ∈ operands, OverColumns c operand) : OverColumns c (.logical w op operands)

/-- The formula of a tree of unary and binary operators over columns. -/
def formula? (c : Compiler) : Node → Option (Formula (Column c.schema))
  | .unary _ op operand => (formula? c operand).map (.unary op)
  | .binary _ op left right =>
    (formula? c left).bind fun l => (formula? c right).map fun r => .binary op l r
  | node => (column? c node).map .column

variable {c : Compiler} {node part ast : Node} {r : Reduced Fragment} {level : Nat} {text : String}

/-! ### Compiled trees -/

/-- A tree that is validated to compiled text compiles to it, at any level. -/
theorem compileToSql_of_reduceAt (h : c.reduceAt level node = .ok (compiled text)) :
    compileToSql c node = .ok text :=
  compileToSql_eq_ok_iff.mpr ⟨compiled text, Optimizer.reduceAt_of_room (.inl (Nat.zero_le level)) h, rfl⟩

/-- What is compiled text each is compiled text together. -/
theorem exists_texts {P : Node → String → Prop} {nodes : List Node} {xs : List (Reduced Fragment)}
    (h : List.Forall₂ (fun n x => ∃ text, x = compiled text ∧ P n text) nodes xs) :
    ∃ texts : List String, xs = texts.map compiled ∧ List.Forall₂ P nodes texts := by
  induction h with
  | nil => exact ⟨[], rfl, .nil⟩
  | cons head _ ih =>
      obtain ⟨text, rfl, hP⟩ := head
      obtain ⟨texts, rfl, hall⟩ := ih
      exact ⟨text :: texts, rfl, .cons hP hall⟩

/-- A chain of texts is loose when the chain binds loosely. -/
theorem looseIff_chain (w : Weight) (op : LogicalOp) {operands : List Node} {texts : List String}
    (h : List.Forall₂ (fun n text => LooseIff text n.bindsLoosely) operands texts) :
    LooseIff (logical op (texts.map .text)).toSql (Node.logical w op operands).bindsLoosely := by
  have closed : ∀ text ∈ texts, Closed text.toList := by
    intro text htext
    obtain ⟨n, -, hloose⟩ := exists_of_mem_forall₂ h htext
    exact hloose.closed
  refine (looseIff_logical op closed).of_iff ?_
  cases h with
  | nil => simp [Node.bindsLoosely]
  | cons head tail =>
      cases tail with
      | nil => simpa [Node.bindsLoosely] using head.isLoose_iff
      | cons next tail => simp [Node.bindsLoosely]

/-- A tree over columns compiles to a text that is loose exactly when the tree binds loosely. The induction
is on the operators, each of which writes its text from those of its operands. -/
theorem OverColumns.exists_compiled (hdomain : c.domain = domain) (hnode : OverColumns c node)
    (h : c.reduceAt level node = .ok r) :
    ∃ text, r = compiled text ∧ LooseIff text node.bindsLoosely := by
  induction hnode generalizing level r with
  | @column node x hcolumn =>
      refine ⟨x.text, eq_compiled_of_column? hdomain hcolumn h, (looseIff_of_isBare x.bare).of_iff ?_⟩
      have hentry := (column?_eq_some_iff.mp hcolumn).1
      cases node with
      | identifier w name => simp [Node.bindsLoosely]
      | member w object path => simp [Node.bindsLoosely]
      | _ => cases hentry
  | @unary w op operand _ ih =>
      obtain ⟨-, x, hx, h⟩ := Optimizer.reduceAt_unary_iff.mp h
      obtain ⟨text, rfl, hloose⟩ := ih hx
      rw [unary_compiled hdomain] at h
      cases h
      exact ⟨_, rfl, (looseIff_unary op hloose).of_iff (by simp [Node.bindsLoosely])⟩
  | @binary w op left right _ _ ihLeft ihRight =>
      obtain ⟨-, x, hx, y, hy, h⟩ := Optimizer.reduceAt_binary_iff.mp h
      obtain ⟨a, rfl, ha⟩ := ihLeft hx
      obtain ⟨b, rfl, hb⟩ := ihRight hy
      obtain ⟨-, rfl⟩ := (binary_compiled_iff hdomain).mp h
      exact ⟨_, rfl, (looseIff_joined op ha hb).of_iff (by simp [Node.bindsLoosely])⟩
  | @logical w op operands _ ih =>
      obtain ⟨-, xs, hxs, h⟩ := Optimizer.reduceAt_logical_iff.mp h
      obtain ⟨texts, rfl, htexts⟩ := exists_texts (forall₂_imp_of_mem hxs fun n hn x hx => ih n hn hx)
      rw [logical_compiled hdomain] at h
      cases h
      exact ⟨_, rfl, looseIff_chain w op htexts⟩

/-! ### Parts of trees over columns -/

/-- The parts of a tree that names an entry name entries. -/
theorem reference?_isSome_of_subtree (hpart : Subtree part node) (h : node.reference?.isSome) :
    part.reference?.isSome := by
  induction hpart with
  | root => exact h
  | @child child node mem _ ih =>
      apply ih
      cases node with
      | member w object path =>
          obtain rfl := List.mem_singleton.mp mem
          simpa [Node.reference?] using h
      | identifier w name => exact absurd mem List.not_mem_nil
      | _ => cases h

/-- The operators in a tree over columns are over columns, and validated with the tree. -/
theorem OverColumns.of_subtree (hnode : OverColumns c node) (hpart : Subtree part node)
    (hentry : part.reference? = none) (h : c.reduceAt level node = .ok r) :
    OverColumns c part ∧ ∃ level r, c.reduceAt level part = .ok r := by
  induction hpart generalizing level r with
  | root => exact ⟨hnode, level, r, h⟩
  | @child child node mem hchild ih =>
      cases hnode with
      | column hcolumn =>
          have hsome : node.reference?.isSome := by
            rw [(column?_eq_some_iff.mp hcolumn).1]
            rfl
          have hpart := reference?_isSome_of_subtree (.child mem hchild) hsome
          rw [hentry] at hpart
          cases hpart
      | unary hoperand =>
          obtain rfl := List.mem_singleton.mp mem
          obtain ⟨-, x, hx, -⟩ := Optimizer.reduceAt_unary_iff.mp h
          exact ih hoperand hx
      | @binary w op left right hleft hright =>
          obtain ⟨-, x, hx, y, hy, -⟩ := Optimizer.reduceAt_binary_iff.mp h
          have mem : child = left ∨ child = right := by simpa [Node.children] using mem
          rcases mem with rfl | rfl
          · exact ih hleft hx
          · exact ih hright hy
      | logical hoperands =>
          obtain ⟨-, xs, hxs, -⟩ := Optimizer.reduceAt_logical_iff.mp h
          obtain ⟨x, -, hx⟩ := exists_of_mem_forall₂ hxs.flip mem
          exact ih (hoperands child mem) hx

/-- A tree over columns compiles by itself wherever it stands. -/
theorem OverColumns.exists_compileToSql (hdomain : c.domain = domain) (hnode : OverColumns c node)
    (h : c.reduceAt level node = .ok r) :
    ∃ text, r = compiled text ∧ compileToSql c node = .ok text ∧ (IsLoose text ↔ node.bindsLoosely) := by
  obtain ⟨text, rfl, hloose⟩ := hnode.exists_compiled hdomain h
  exact ⟨text, rfl, compileToSql_of_reduceAt h, hloose.isLoose_iff⟩

/-- The text of a binary node in a tree over columns is made of those of its operands, which are loose
exactly when the operands bind loosely. -/
theorem OverColumns.exists_operands (hdomain : c.domain = domain) (hast : OverColumns c ast)
    (h : compileToSql c ast = .ok text) {w : Weight} {op : BinaryOp} {left right : Node}
    (hpart : Subtree (.binary w op left right) ast) :
    ∃ a b, compileToSql c left = .ok a ∧ compileToSql c right = .ok b ∧
      compileToSql c (.binary w op left right) = .ok (joined op a b) ∧
      (IsLoose a ↔ left.bindsLoosely) ∧ (IsLoose b ↔ right.bindsLoosely) := by
  obtain ⟨r, hr, -⟩ := compileToSql_eq_ok_iff.mp h
  obtain ⟨hcolumns, level, x, hx⟩ := hast.of_subtree hpart rfl hr
  cases hcolumns with
  | column hcolumn => cases (column?_eq_some_iff.mp hcolumn).1
  | binary hleft hright =>
      obtain ⟨-, y, hy, z, hz, h⟩ := Optimizer.reduceAt_binary_iff.mp hx
      obtain ⟨a, rfl, ha, haloose⟩ := hleft.exists_compileToSql hdomain hy
      obtain ⟨b, rfl, hb, hbloose⟩ := hright.exists_compileToSql hdomain hz
      obtain ⟨-, rfl⟩ := (binary_compiled_iff hdomain).mp h
      exact ⟨a, b, ha, hb, compileToSql_of_reduceAt hx, haloose, hbloose⟩

/-! ### Formulas of trees -/

/-- A tree has a formula and compiles to its text at every level with room for it. -/
structure Compiles (c : Compiler) (node : Node) (f : Formula (Column c.schema)) : Prop where
  formula : formula? c node = some f
  reduceAt : ∀ level, c.Fits level node → c.reduceAt level node = .ok (compiled (f.sql Column.text))

variable {f g : Formula (Column c.schema)}

/-- A tree without chains compiles to the text of its formula. -/
theorem eq_compiled_of_formula? (hdomain : c.domain = domain) (hformula : formula? c node = some f)
    (h : c.reduceAt level node = .ok r) : r = compiled (f.sql Column.text) := by
  fun_induction formula? c node generalizing f level r with
  | case1 w op operand ih =>
      obtain ⟨g, hg, rfl⟩ := Option.map_eq_some_iff.mp hformula
      obtain ⟨-, x, hx, h⟩ := Optimizer.reduceAt_unary_iff.mp h
      obtain rfl := ih hg hx
      rw [unary_compiled hdomain] at h
      exact (Except.ok.inj h).symm
  | case2 w op left right ihLeft ihRight =>
      obtain ⟨l, hl, hformula⟩ := Option.bind_eq_some_iff.mp hformula
      obtain ⟨r', hr, rfl⟩ := Option.map_eq_some_iff.mp hformula
      obtain ⟨-, x, hx, y, hy, h⟩ := Optimizer.reduceAt_binary_iff.mp h
      obtain rfl := ihLeft hl hx
      obtain rfl := ihRight hr hy
      exact ((binary_compiled_iff hdomain).mp h).2
  | case3 node hunary hbinary =>
      obtain ⟨x, hcolumn, rfl⟩ := Option.map_eq_some_iff.mp hformula
      exact eq_compiled_of_column? hdomain hcolumn h

/-- A tree compiles to the text of its formula, if to anything. -/
theorem eq_sql_of_formula? (hdomain : c.domain = domain) (hformula : formula? c node = some f)
    (h : compileToSql c node = .ok text) : text = f.sql Column.text := by
  obtain ⟨r, hr, htext⟩ := compileToSql_eq_ok_iff.mp h
  obtain rfl := eq_compiled_of_formula? hdomain hformula hr
  exact (Except.ok.inj htext).symm

/-- A tree with a formula that is validated at some level compiles to the text of the formula. -/
theorem compiles_of_reduceAt (hdomain : c.domain = domain) (hformula : formula? c node = some f)
    (h : c.reduceAt level node = .ok r) : Compiles c node f := by
  obtain rfl := eq_compiled_of_formula? hdomain hformula h
  exact ⟨hformula, fun other fits => Optimizer.reduceAt_of_room (.inr fits) h⟩

/-- An operator in front of an operand compiles if the operand does. -/
theorem Compiles.unary (hdomain : c.domain = domain) (h : Compiles c node f) (w : Weight)
    (op : UnaryOp) : Compiles c (.unary w op node) (.unary op f) := by
  refine ⟨?_, ?_⟩
  · rw [formula?, h.formula, Option.map_some]
  · intro level fits
    have hnode := h.reduceAt _ (fits.child (by simp [Node.children]))
    exact Optimizer.reduceAt_unary_iff.mpr ⟨fits.le, _, hnode, unary_compiled hdomain op⟩

/-- An operator that can be written compiles if its operands do. -/
theorem Compiles.binary (hdomain : c.domain = domain) {left right : Node} (hleft : Compiles c left f)
    (hright : Compiles c right g) (w : Weight) {op : BinaryOp} (hop : op ≠ .shiftRightUnsigned) :
    Compiles c (.binary w op left right) (.binary op f g) := by
  refine ⟨?_, ?_⟩
  · rw [formula?, hleft.formula, hright.formula, Option.bind_some, Option.map_some]
  · intro level fits
    have hl := hleft.reduceAt _ (fits.child (by simp [Node.children]))
    have hr := hright.reduceAt _ (fits.child (by simp [Node.children]))
    refine Optimizer.reduceAt_binary_iff.mpr ⟨fits.le, _, hl, _, hr, ?_⟩
    exact (binary_compiled_iff hdomain).mpr ⟨hop, rfl⟩

/-- A formula is that of a tree which is validated at some level. -/
def IsValidated (c : Compiler) (f : Formula (Column c.schema)) : Prop :=
  ∃ node level r, formula? c node = some f ∧ c.reduceAt level node = .ok r

/-- A formula that is validated is compiled from some tree. -/
theorem IsValidated.exists_compiles (hdomain : c.domain = domain) (h : IsValidated c f) :
    ∃ node, Compiles c node f := by
  obtain ⟨node, level, r, hformula, hr⟩ := h
  exact ⟨node, compiles_of_reduceAt hdomain hformula hr⟩

/-- The tree of a formula has the operator of the formula at its root. -/
theorem exists_eq_unary_of_formula? {op : UnaryOp} (h : formula? c node = some (.unary op f)) :
    ∃ w operand, node = .unary w op operand ∧ formula? c operand = some f := by
  cases node with
  | unary w op operand =>
      obtain ⟨g, hg, heq⟩ := Option.map_eq_some_iff.mp h
      cases heq
      exact ⟨w, operand, rfl, hg⟩
  | binary w op left right =>
      obtain ⟨l, -, h⟩ := Option.bind_eq_some_iff.mp h
      obtain ⟨g, -, heq⟩ := Option.map_eq_some_iff.mp h
      cases heq
  | _ =>
      obtain ⟨x, -, heq⟩ := Option.map_eq_some_iff.mp h
      cases heq

/-- The formula of an operator is that of an operator over the formulas of the operands. -/
theorem exists_eq_binary_of_formula? {op : BinaryOp} (h : formula? c node = some (.binary op f g)) :
    ∃ w left right, node = .binary w op left right ∧ formula? c left = some f ∧
      formula? c right = some g := by
  cases node with
  | binary w op left right =>
      obtain ⟨l, hl, h⟩ := Option.bind_eq_some_iff.mp h
      obtain ⟨r, hr, heq⟩ := Option.map_eq_some_iff.mp h
      cases heq
      exact ⟨w, left, right, rfl, hl, hr⟩
  | _ =>
      obtain ⟨x, -, heq⟩ := Option.map_eq_some_iff.mp h
      cases heq

/-- The operand of a validated formula is validated. -/
theorem IsValidated.of_unary {op : UnaryOp} (h : IsValidated c (.unary op f)) : IsValidated c f := by
  obtain ⟨node, level, r, hformula, hr⟩ := h
  obtain ⟨w, operand, rfl, hf⟩ := exists_eq_unary_of_formula? hformula
  obtain ⟨-, x, hx, -⟩ := Optimizer.reduceAt_unary_iff.mp hr
  exact ⟨operand, _, x, hf, hx⟩

/-- The operands of a validated formula are validated, and its operator can be written. -/
theorem IsValidated.of_binary (hdomain : c.domain = domain) {op : BinaryOp}
    (h : IsValidated c (.binary op f g)) :
    op ≠ .shiftRightUnsigned ∧ IsValidated c f ∧ IsValidated c g := by
  obtain ⟨node, level, r, hformula, hr⟩ := h
  obtain ⟨w, left, right, rfl, hf, hg⟩ := exists_eq_binary_of_formula? hformula
  obtain ⟨-, x, hx, y, hy, hjoined⟩ := Optimizer.reduceAt_binary_iff.mp hr
  refine ⟨?_, ⟨left, _, x, hf, hx⟩, ⟨right, _, y, hg, hy⟩⟩
  rw [eq_compiled_of_formula? hdomain hf hx, eq_compiled_of_formula? hdomain hg hy] at hjoined
  exact ((binary_compiled_iff hdomain).mp hjoined).1

/-- Where a row has more than two operands, another of its operators may come first. -/
theorem exists_compiles_rotated (hdomain : c.domain = domain) {op : BinaryOp}
    (h : IsValidated c (.binary op f g)) (hop : op = .eq ∨ op = .within)
    (hwithin : ¬(f.isWithin = false ∧ g.isWithin = false)) :
    ∃ other e, Compiles c other e ∧ e ≠ .binary op f g ∧
      e.sql Column.text = (Formula.binary op f g).sql Column.text := by
  obtain ⟨hwritten, hf, hg⟩ := h.of_binary hdomain
  have within : BinaryOp.within ≠ .shiftRightUnsigned := by decide
  by_cases hfront : f.isWithin
  · obtain ⟨x, y, rfl⟩ := Formula.exists_of_isWithin hfront
    obtain ⟨-, hx, hy⟩ := hf.of_binary hdomain
    obtain ⟨a, ha⟩ := hx.exists_compiles hdomain
    obtain ⟨b, hb⟩ := hy.exists_compiles hdomain
    obtain ⟨d, hd⟩ := hg.exists_compiles hdomain
    exact ⟨_, _, ha.binary hdomain (hb.binary hdomain hd 0 within) 0 hwritten,
      Formula.rotate_ne op x y g, Formula.sql_rotate hop x y g⟩
  · have hback : g.isWithin := by simpa [hfront] using hwithin
    obtain ⟨y, z, rfl⟩ := Formula.exists_of_isWithin hback
    obtain ⟨-, hy, hz⟩ := hg.of_binary hdomain
    obtain ⟨a, ha⟩ := hf.exists_compiles hdomain
    obtain ⟨b, hb⟩ := hy.exists_compiles hdomain
    obtain ⟨d, hd⟩ := hz.exists_compiles hdomain
    exact ⟨_, _, (ha.binary hdomain hb 0 within).binary hdomain hd 0 hwritten,
      (Formula.rotate_ne op f y z).symm, (Formula.sql_rotate hop f y z).symm⟩

/-- A formula that is not grouped shares its text with another one, which a tree compiles to as well. -/
theorem exists_compiles_ne (hdomain : c.domain = domain) (h : IsValidated c f) (hf : ¬ f.IsGrouped) :
    ∃ other g, Compiles c other g ∧ g ≠ f ∧ g.sql Column.text = f.sql Column.text := by
  induction f with
  | column x => exact absurd trivial hf
  | unary op f ih =>
      obtain ⟨other, g, hother, hne, hsql⟩ := ih h.of_unary hf
      refine ⟨_, _, hother.unary hdomain 0 op, ?_, ?_⟩
      · intro heq
        exact hne (Formula.unary.inj heq).2
      · rw [Formula.sql, hsql, ← Formula.sql]
  | binary op l r ihLeft ihRight =>
      obtain ⟨hop, hl, hr⟩ := h.of_binary hdomain
      obtain ⟨left, hleft⟩ := hl.exists_compiles hdomain
      obtain ⟨right, hright⟩ := hr.exists_compiles hdomain
      by_cases hgroupedLeft : l.IsGrouped
      · by_cases hgroupedRight : r.IsGrouped
        · have hsides : ¬(op = .eq ∨ op = .within → l.isWithin = false ∧ r.isWithin = false) := by
            intro hsides
            exact hf ⟨hsides, hgroupedLeft, hgroupedRight⟩
          obtain ⟨hequals, hwithin⟩ := Classical.not_imp.mp hsides
          exact exists_compiles_rotated hdomain h hequals hwithin
        · obtain ⟨other, g, hother, hne, hsql⟩ := ihRight hr hgroupedRight
          refine ⟨_, _, hleft.binary hdomain hother 0 hop, ?_, ?_⟩
          · intro heq
            exact hne (Formula.binary.inj heq).2.2
          · rw [Formula.sql, hsql, ← Formula.sql]
      · obtain ⟨other, g, hother, hne, hsql⟩ := ihLeft hl hgroupedLeft
        refine ⟨_, _, hother.binary hdomain hright 0 hop, ?_, ?_⟩
        · intro heq
          exact hne (Formula.binary.inj heq).2.1
        · rw [Formula.sql, hsql, ← Formula.sql]

/-! ### Rules told apart by their text -/

/-- A tree over columns without chains has a formula. -/
theorem OverColumns.exists_formula? (hnode : OverColumns c node) (hchain : node.hasChain = false) :
    ∃ f, formula? c node = some f := by
  induction hnode with
  | @column node x hcolumn =>
      have hentry := (column?_eq_some_iff.mp hcolumn).1
      have hformula : formula? c node = (column? c node).map .column := by
        cases node with
        | unary w op operand => cases hentry
        | binary w op left right => cases hentry
        | _ => rfl
      exact ⟨.column x, by rw [hformula, hcolumn, Option.map_some]⟩
  | @unary w op operand _ ih =>
      obtain ⟨f, hf⟩ := ih hchain
      exact ⟨.unary op f, by rw [formula?, hf, Option.map_some]⟩
  | @binary w op left right _ _ ihLeft ihRight =>
      rw [Node.hasChain, Bool.or_eq_false_iff] at hchain
      obtain ⟨f, hf⟩ := ihLeft hchain.1
      obtain ⟨g, hg⟩ := ihRight hchain.2
      exact ⟨.binary op f g, by rw [formula?, hf, hg, Option.bind_some, Option.map_some]⟩
  | logical => cases hchain

/-- A grouped rule is the only one without chains that compiles to its text. -/
theorem formula?_eq_of_compileToSql_eq (hdomain : c.domain = domain)
    (different : Function.Injective (Column.text : Column c.schema → String))
    (hformula : formula? c ast = some f) (hf : f.IsGrouped) (h : compileToSql c ast = .ok text)
    (hnode : OverColumns c node) (hchain : node.hasChain = false) (h' : compileToSql c node = .ok text) :
    formula? c node = some f := by
  obtain ⟨g, hg⟩ := hnode.exists_formula? hchain
  have hsql : g.sql Column.text = f.sql Column.text := by
    rw [← eq_sql_of_formula? hdomain hg h', ← eq_sql_of_formula? hdomain hformula h]
  rw [hg, Formula.eq_of_sql_eq Column.bare different hf hsql]

/-- Any other rule shares its text with a different one, which compiles to it if it is not too deep. -/
theorem exists_compileToSql_eq (hdomain : c.domain = domain) (hformula : formula? c ast = some f)
    (hf : ¬ f.IsGrouped) (h : compileToSql c ast = .ok text) :
    ∃ other g, formula? c other = some g ∧ g ≠ f ∧ g.sql Column.text = text ∧
      (c.Fits 0 other → compileToSql c other = .ok text) := by
  obtain ⟨r, hr, -⟩ := compileToSql_eq_ok_iff.mp h
  obtain ⟨other, g, hother, hne, hsql⟩ := exists_compiles_ne hdomain ⟨ast, 0, r, hformula, hr⟩ hf
  have htext : g.sql Column.text = text := by rw [hsql, ← eq_sql_of_formula? hdomain hformula h]
  refine ⟨other, g, hother.formula, hne, htext, ?_⟩
  intro fits
  rw [compileToSql_of_reduceAt (hother.reduceAt 0 fits), htext]

/-- What compiled text keeps of the grouping of a rule over columns. The text of a binary node holds the
texts of its operands, and an operand has an operator that binds as loosely as a comparison outside of all
parentheses exactly when it is an `in`, a `!`, or a chain. Of the rules without chains, those without an
`in` next to `=` or another `in` are the only ones with their text, and all others share it. -/
theorem grouping_of_compileToSql (hdomain : c.domain = domain) (hast : OverColumns c ast)
    (h : compileToSql c ast = .ok text) :
    (∀ w op left right, Subtree (.binary w op left right) ast →
      ∃ a b, compileToSql c left = .ok a ∧ compileToSql c right = .ok b ∧
        compileToSql c (.binary w op left right) = .ok (joined op a b) ∧
        (IsLoose a ↔ left.bindsLoosely) ∧ (IsLoose b ↔ right.bindsLoosely)) ∧
    (Function.Injective (Column.text : Column c.schema → String) → ast.hasChain = false →
      ∃ f, formula? c ast = some f ∧
        (f.IsGrouped → ∀ other, OverColumns c other → other.hasChain = false →
          compileToSql c other = .ok text → formula? c other = some f) ∧
        (¬ f.IsGrouped → ∃ other g, formula? c other = some g ∧ g ≠ f ∧ g.sql Column.text = text ∧
          (c.Fits 0 other → compileToSql c other = .ok text))) := by
  refine ⟨?_, ?_⟩
  · intro w op left right hpart
    exact hast.exists_operands hdomain h hpart
  · intro different hchain
    obtain ⟨f, hformula⟩ := hast.exists_formula? hchain
    refine ⟨f, hformula, ?_, fun hf => exists_compileToSql_eq hdomain hformula hf h⟩
    intro hf other hother hother' h'
    exact formula?_eq_of_compileToSql_eq hdomain different hformula hf h hother hother' h'

end Sql

namespace Sample

open Sql

/-- Where the members of a transaction are leaves, a column is one of them. -/
theorem exists_key_of_transactionMembers {shape : String → Shape} {keys : List String} {text : String}
    (leaf : ∀ key segment, (shape key).get? segment = none)
    (h : ((transactionMembers shape).lookup? (keys.map .key)).bind Shape.columnText? = some text) :
    ∃ key, keys = [key] ∧ (shape key).columnText? = some text := by
  cases keys with
  | nil => cases h
  | cons key rest =>
      obtain ⟨found, hfound, h⟩ := Option.bind_eq_some_iff.mp h
      obtain ⟨member, hmember, hfound⟩ := Option.bind_eq_some_iff.mp hfound
      obtain ⟨name, -, heq⟩ := List.mem_map.mp (Members.mem_of_find? hmember)
      cases heq
      cases rest with
      | nil =>
          cases hfound
          exact ⟨key, rfl, h⟩
      | cons next rest =>
          obtain ⟨below, hbelow, -⟩ := Option.bind_eq_some_iff.mp hfound
          cases (leaf _ _).symm.trans hbelow

/-- The columns of the sample schema stand for the members of transactions. -/
theorem exists_key_of_column (x : Column sqlSchema) : ∃ key, x.keys = [key] ∧
    (x.name = "past" ∧ x.text = "t." ++ key ∨ x.name = "trx" ∧ x.text = ":" ++ key) := by
  obtain ⟨shape, hshape, h⟩ := Option.bind_eq_some_iff.mp x.declared
  have hmem := Members.mem_of_find? hshape
  simp only [sqlSchema, List.mem_cons, List.not_mem_nil, or_false, Prod.mk.injEq] at hmem
  rcases hmem with ⟨-, rfl⟩ | ⟨hname, rfl⟩ | ⟨hname, rfl⟩
  · have htext : x.text = "INTERVAL 30 DAY" := by
      cases hkeys : x.keys with
      | nil =>
          rw [hkeys] at h
          exact (Option.some.inj h).symm
      | cons key rest =>
          rw [hkeys] at h
          cases h
    have bare := x.bare
    rw [htext] at bare
    exact absurd bare (by decide)
  · obtain ⟨key, hkeys, htext⟩ := exists_key_of_transactionMembers (fun _ _ => rfl) h
    exact ⟨key, hkeys, .inl ⟨hname, (Option.some.inj htext).symm⟩⟩
  · obtain ⟨key, hkeys, htext⟩ := exists_key_of_transactionMembers (fun _ _ => rfl) h
    exact ⟨key, hkeys, .inr ⟨hname, (Option.some.inj htext).symm⟩⟩

/-- No two columns of the sample schema have the same text. -/
theorem text_injective : Function.Injective (Column.text : Column compiler.schema → String) := by
  intro x y heq
  have apart (key other : String) : "t." ++ key ≠ ":" ++ other := by
    intro h
    have hhead := congrArg (fun text => text.toList.head?) h
    simp at hhead
  obtain ⟨key, hkeys, hx⟩ := exists_key_of_column x
  obtain ⟨other, hother, hy⟩ := exists_key_of_column y
  rcases hx with ⟨hname, htext⟩ | ⟨hname, htext⟩
  · rcases hy with ⟨hname', htext'⟩ | ⟨hname', htext'⟩
    · rw [htext, htext', String.append_right_inj] at heq
      exact Column.eq_of_entry (hname.trans hname'.symm) (by rw [hkeys, hother, heq])
    · exact absurd (htext.symm.trans (heq.trans htext')) (apart key other)
  · rcases hy with ⟨hname', htext'⟩ | ⟨hname', htext'⟩
    · exact absurd (htext'.symm.trans (heq.symm.trans htext)) (apart other key)
    · rw [htext, htext', String.append_right_inj] at heq
      exact Column.eq_of_entry (hname.trans hname'.symm) (by rw [hkeys, hother, heq])

/-- A member that is declared as a column is a tree over columns. -/
theorem overColumns_memberOf {name key text : String}
    (declared : sqlSchema.columnText? name [key] = some text) (bare : IsBare text)
    (free : compiler.feature? name = none) : OverColumns compiler (memberOf name key) :=
  .column (x := ⟨name, [key], text, declared, bare⟩) (column?_eq_some_iff.mpr ⟨rfl, free⟩)

/-- A transaction from another country than the one under review. -/
def otherCountry : Node :=
  .unary 0 .not (.binary 0 .within (memberOf "past" "country") (memberOf "trx" "country"))

/-- A transaction with the same label as the one under review. -/
def sameLabel : Node :=
  .binary 0 .eq (memberOf "past" "label") (memberOf "trx" "label")

/-- The label is the same exactly if the country is not. -/
def otherCountrySameLabel : Node :=
  .binary 0 .eq otherCountry sameLabel

/-- One operand of the comparison is loose, and no other tree over columns has its text with another
formula. -/
theorem grouping_otherCountrySameLabel :
    compileToSql compiler otherCountrySameLabel = .ok "(NOT (t.country=:country)=(t.label=:label))" ∧
      (∃ a b, compileToSql compiler otherCountry = .ok a ∧ IsLoose a ∧
        compileToSql compiler sameLabel = .ok b ∧ ¬ IsLoose b) ∧
      ∀ other, OverColumns compiler other → other.hasChain = false →
        compileToSql compiler other = .ok "(NOT (t.country=:country)=(t.label=:label))" →
          formula? compiler other = formula? compiler otherCountrySameLabel := by
  have columns : OverColumns compiler otherCountrySameLabel := by
    refine .binary (.unary (.binary ?_ ?_)) (.binary ?_ ?_)
    all_goals exact overColumns_memberOf rfl (by decide) rfl
  have hcompiled : compileToSql compiler otherCountrySameLabel =
      .ok "(NOT (t.country=:country)=(t.label=:label))" := rfl
  obtain ⟨hoperands, hformula⟩ := grouping_of_compileToSql rfl columns hcompiled
  obtain ⟨a, b, ha, hb, -, hloose, hloose'⟩ := hoperands 0 .eq otherCountry sameLabel .root
  obtain ⟨f, hf, honly, -⟩ := hformula text_injective rfl
  have grouped : f.IsGrouped := by
    have hcolumns : ∃ f, formula? compiler otherCountrySameLabel = some f ∧ f.IsGrouped :=
      ⟨_, rfl, by simp [Formula.IsGrouped, Formula.isWithin]⟩
    obtain ⟨g, hg, hgrouped⟩ := hcolumns
    cases hf.symm.trans hg
    exact hgrouped
  refine ⟨hcompiled, ⟨a, b, ha, hloose.mpr rfl, hb, ?_⟩, ?_⟩
  · rw [hloose']
    decide
  · intro other hother hchain h
    rw [honly grouped other hother hchain h, hf]

/-- The country and the currency are one, against the label. -/
def countryCurrencyFirst : Node :=
  .binary 0 .eq (.binary 0 .within (memberOf "trx" "country") (memberOf "trx" "currency"))
    (memberOf "trx" "label")

/-- The currency and the label are one, against the country. -/
def currencyLabelFirst : Node :=
  .binary 0 .eq (memberOf "trx" "country")
    (.binary 0 .within (memberOf "trx" "currency") (memberOf "trx" "label"))

/-- Two rules that compile to one text. Of both, an operand is written with an operator that the one around
it may tear apart. -/
theorem not_grouping_countryCurrencyFirst :
    OverColumns compiler countryCurrencyFirst ∧ OverColumns compiler currencyLabelFirst ∧
      countryCurrencyFirst.hasChain = false ∧ currencyLabelFirst.hasChain = false ∧
      formula? compiler countryCurrencyFirst ≠ formula? compiler currencyLabelFirst ∧
      compileToSql compiler countryCurrencyFirst = .ok "(:country=:currency=:label)" ∧
      compileToSql compiler currencyLabelFirst = .ok "(:country=:currency=:label)" ∧
      compileToSql compiler
        (.binary 0 .within (memberOf "trx" "country") (memberOf "trx" "currency")) =
          .ok ":country=:currency" ∧
      IsLoose ":country=:currency" := by
  have first : OverColumns compiler countryCurrencyFirst := by
    refine .binary (.binary ?_ ?_) ?_
    all_goals exact overColumns_memberOf rfl (by decide) rfl
  have last : OverColumns compiler currencyLabelFirst := by
    refine .binary ?_ (.binary ?_ ?_)
    all_goals exact overColumns_memberOf rfl (by decide) rfl
  have apart : formula? compiler countryCurrencyFirst ≠ formula? compiler currencyLabelFirst := by
    intro h
    cases h
  have loose : IsLoose ":country=:currency" :=
    ⟨"=", by simp [looseOperators], ":country", ":currency", rfl, by decide⟩
  exact ⟨first, last, rfl, rfl, apart, rfl, rfl, rfl, loose⟩

end Sample

end RuleLang
