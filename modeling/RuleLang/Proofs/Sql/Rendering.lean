import RuleLang.Proofs.Agreement
import RuleLang.Proofs.Number.Characters
import RuleLang.Proofs.Sql.Token
import RuleLang.Proofs.Value.Texts
import RuleLang.Sql.Domain

/-!
# Rendering alike values

Values that differ in texts only are rendered as SQL texts that differ only in the contents of their
strings, and operators keep such texts alike.

* `Sql.Fragment.Alike`: fragments whose texts differ only in the contents of their strings.
* `Sql.agree_renderLiteral`, `Sql.agree_renderElement`: alike values have alike fragments.
* `Sql.alike_unary` to `Sql.alike_conditional`: operators on alike fragments.
-/

namespace RuleLang.Sql

/-! ### Literals -/

/-- The text of a number has no quotes. -/
theorem plain_numberText (x : Float) : Plain (Number.text x) :=
  fun h => absurd (Number.text_subset_characters x h) (by decide)

/-- Fragments of the same kind whose texts differ only in the contents of their strings. -/
inductive Fragment.Alike (R : String → String → Prop) : Fragment → Fragment → Prop
  | text {x y : String} (h : Sql.Alike R x y) : Alike R (.text x) (.text y)
  | list {xs ys : List String} (h : List.Forall₂ (Sql.Alike R) xs ys) : Alike R (.list xs) (.list ys)

variable {R : String → String → Prop} {v v' : Value} {f f' g g' : Fragment}

/-- Lists of items that are alike are alike. -/
theorem alike_items {xs ys : List String} (h : List.Forall₂ (Sql.Alike R) xs ys) :
    Sql.Alike R (",".intercalate xs) (",".intercalate ys) :=
  .intercalate (by decide) (by decide) h

/-- The texts of fragments that are alike are alike. -/
theorem Fragment.Alike.toSql (h : f.Alike R f') : Sql.Alike R f.toSql f'.toSql := by
  cases h with
  | text h => exact h
  | list h => exact ((alike_items h).precede (by decide)).follow (by decide)

/-- Scalars that are alike are written alike. -/
theorem agree_scalar (h : v.Alike R v') : Agree (Sql.Alike R) (scalar v) (scalar v') := by
  cases h with
  | undefined => exact .ok (.plain (by decide))
  | null => exact .ok (.plain (by decide))
  | bool b => cases b <;> exact .ok (.plain (by decide))
  | number x => exact .ok (.quoted (.inl rfl))
  | string h => exact .ok (.quoted (.inr h))
  | array h => exact .error _ _
  | object keys h => exact .error _ _

/-- Items that are alike are written alike. -/
theorem agree_listItem (h : v.Alike R v') : Agree (Sql.Alike R) (listItem v) (listItem v') := by
  cases h with
  | number x => exact .ok (.plain (plain_numberText x))
  | undefined => exact agree_scalar .undefined
  | null => exact agree_scalar .null
  | bool b => exact agree_scalar (.bool b)
  | string h => exact agree_scalar (.string h)
  | array h => exact agree_scalar (.array h)
  | object keys h => exact agree_scalar (.object keys h)

/-- Alike literals are rendered as alike fragments, or neither has a form in SQL. -/
theorem agree_renderLiteral (h : v.Alike R v') :
    Agree (Fragment.Alike R) (renderLiteral v false) (renderLiteral v' false) := by
  cases h with
  | array h =>
      refine Agree.map (Agree.mapM h fun _ _ hitem => agree_listItem hitem) ?_
      intro _ _ hitems
      exact .list hitems
  | undefined => exact (agree_scalar .undefined).map fun _ _ h => .text h
  | null => exact (agree_scalar .null).map fun _ _ h => .text h
  | bool b => exact (agree_scalar (.bool b)).map fun _ _ h => .text h
  | number x => exact (agree_scalar (.number x)).map fun _ _ h => .text h
  | string h => exact (agree_scalar (.string h)).map fun _ _ h => .text h
  | object keys h => exact (agree_scalar (.object keys h)).map fun _ _ h => .text h

/-- Elements that are alike are rendered alike. -/
theorem agree_renderElement (h : v.Alike R v') :
    Agree (Fragment.Alike R) (renderElement v false) (renderElement v' false) := by
  cases h with
  | number x => exact .ok (.text (.plain (plain_numberText x)))
  | undefined => exact agree_renderLiteral .undefined
  | null => exact agree_renderLiteral .null
  | bool b => exact agree_renderLiteral (.bool b)
  | string h => exact agree_renderLiteral (.string h)
  | array h => exact agree_renderLiteral (.array h)
  | object keys h => exact agree_renderLiteral (.object keys h)

/-! ### Operators -/

/-- An operator in front of fragments that are alike gives fragments that are alike. -/
theorem alike_unary (op : UnaryOp) (h : f.Alike R f') : (unary op f).Alike R (unary op f') := by
  refine .text (Sql.Alike.follow (Sql.Alike.precede ?_ h.toSql) (by decide))
  cases op <;> decide

/-- An operator that stands in the middle is written between its operands, in parentheses. -/
theorem binary_of_infixText? {op : BinaryOp} {between : String} (h : infixText? op = some between)
    (f g : Fragment) :
    binary op f g = .ok (.text ("(" ++ f.toSql ++ between ++ g.toSql ++ ")")) := by
  cases op <;> cases h <;> rfl

/-- The text of an operator between operands is not empty and has no quotes. -/
theorem plain_infixText {op : BinaryOp} {between : String} (h : infixText? op = some between) :
    Plain between ∧ between ≠ "" := by
  cases op <;> cases h <;> decide

/-- Tests for a member of lists that are alike are alike. -/
theorem alike_within {x x' : String} (hx : Sql.Alike R x x') (hg : g.Alike R g') :
    Sql.Alike R (within x g) (within x' g') := by
  cases hg with
  | text hg => exact hx.join (by decide) (by decide) hg
  | list hg => exact (hx.join (by decide) (by decide) (alike_items hg)).follow (by decide)

/-- An operator that SQL lacks fails for both of two alike pairs of operands. -/
theorem agree_binary (op : BinaryOp) (hf : f.Alike R f') (hg : g.Alike R g') :
    Agree (Fragment.Alike R) (binary op f g) (binary op f' g') := by
  cases h : infixText? op with
  | some between =>
      obtain ⟨hplain, hne⟩ := plain_infixText h
      have hleft : Sql.Alike R ("(" ++ f.toSql) ("(" ++ f'.toSql) := hf.toSql.precede (by decide)
      rw [binary_of_infixText? h, binary_of_infixText? h]
      exact .ok (.text ((hleft.join hplain hne hg.toSql).follow (by decide)))
  | none =>
      cases op with
      | power =>
          have hleft : Sql.Alike R ("POWER(" ++ f.toSql) ("POWER(" ++ f'.toSql) :=
            hf.toSql.precede (by decide)
          exact .ok (.text ((hleft.join (by decide) (by decide) hg.toSql).follow (by decide)))
      | within => exact .ok (.text (alike_within hf.toSql hg))
      | shiftRightUnsigned => exact .error _ _
      | _ => cases h

/-- A chain encloses both of two alike operands, or neither. -/
theorem alike_logical (op : LogicalOp) {fs gs : List Fragment}
    (h : List.Forall₂ (Fragment.Alike R) fs gs) :
    (logical op fs).Alike R (logical op gs) := by
  cases h with
  | nil => cases op <;> exact .text (.plain (by decide))
  | cons head tail =>
      cases tail with
      | nil => exact .text head.toSql
      | cons next tail =>
          refine .text (Sql.Alike.intercalate ?_ ?_ ?_)
          · cases op <;> decide
          · cases op <;> decide
          · rw [List.forall₂_map_left_iff, List.forall₂_map_right_iff]
            exact (List.Forall₂.cons head (.cons next tail)).imp fun _ _ h => h.toSql.enclose

/-- Arrays of fragments that are alike are alike. -/
theorem alike_array {fs gs : List Fragment} (h : List.Forall₂ (Fragment.Alike R) fs gs) :
    (Fragment.list (fs.map Fragment.toSql)).Alike R (.list (gs.map Fragment.toSql)) := by
  refine .list ?_
  rw [List.forall₂_map_left_iff, List.forall₂_map_right_iff]
  exact h.imp fun _ _ h => h.toSql

/-- Conditionals of fragments that are alike are alike. -/
theorem alike_conditional {test test' : Fragment} (htest : test.Alike R test') (hf : f.Alike R f')
    (hg : g.Alike R g') : (conditional test f g).Alike R (conditional test' f' g') := by
  have hwhen : Sql.Alike R ("CASE WHEN " ++ test.toSql) ("CASE WHEN " ++ test'.toSql) :=
    htest.toSql.precede (by decide)
  have hthen := hwhen.join (by decide : Plain " THEN ") (by decide) hf.toSql
  have helse := hthen.join (by decide : Plain " ELSE ") (by decide) hg.toSql
  exact .text (helse.follow (by decide))

end RuleLang.Sql
