import RuleLang.Proofs.Node.Subtree
import RuleLang.Proofs.Spelling
import RuleLang.Proofs.Sql.Compiled

/-!
# Columns in rules

A name of the schema, or a member of one, may be declared as a column or a parameter. It compiles to the
text that is declared for it.

* `Sql.IsBare`: texts that look like one word.
* `Sql.Column`: a column or parameter of a schema with a bare text.
* `Node.reference?`: the entry of a schema that a tree names.
* `Sql.column?`, `Sql.eq_compiled_of_column?`: the column that a tree names, and what it compiles to.
-/

namespace RuleLang

/-- The text of a column or a parameter. -/
def Shape.columnText? : Shape → Option String
  | field column => some column
  | placeholder marker => some marker
  | _ => none

/-- The text of the column or parameter that is declared under a name and the keys that follow it. -/
def Schema.columnText? (schema : Schema) (name : String) (keys : List String) : Option String :=
  (schema.get? name).bind fun shape => (shape.lookup? (keys.map .key)).bind Shape.columnText?

/-- The entry of a schema that a name or a member of a name stands for: the name, and the keys that lead
on from it. -/
def Node.reference? : Node → Option (String × List String)
  | identifier _ name => some (name, [])
  | member _ object path =>
    (reference? object).map fun entry => (entry.1, entry.2 ++ path.map Segment.keyText)
  | _ => none

namespace Shape

/-- A step leads where the key that it stands for leads. -/
theorem lookup?_keyText (shape : Shape) (path : Path) :
    shape.lookup? ((path.map Segment.keyText).map .key) = shape.lookup? path := by
  induction path generalizing shape with
  | nil => rfl
  | cons segment path ih =>
      have hget : shape.get? (.key segment.keyText) = shape.get? segment := shape.get?_spelledOut segment
      rw [List.map_cons, List.map_cons, lookup?, lookup?, hget]
      exact Option.bind_congr fun next _ => ih next

end Shape

namespace Sql

/-- What is written unchanged is the text of a column or a parameter. -/
theorem splice_eq (shape : Shape) : splice shape = shape.columnText?.map .text := by
  cases shape <;> rfl

/-! ### Bare texts -/

/-- The characters that separate words, enclose them, or write operators. -/
def marks : List Char :=
  [' ', '\'', '(', ')', ',', '=', '<', '>', '!', '+', '-', '*', '/', '%', '&', '^', '|', '~']

/-- A text looks like one word: it is not empty, has no character that operators are written with, and is
not the operator that is written as a word in front of its operand. -/
def IsBare (text : String) : Prop :=
  text ≠ "" ∧ text ≠ "NOT" ∧ ∀ c ∈ text.toList, c ∉ marks

instance (text : String) : Decidable (IsBare text) :=
  decidable_of_iff (text ≠ "" ∧ text ≠ "NOT" ∧ text.toList.all (· ∉ marks)) (by simp [IsBare])

/-- A column or parameter of a schema whose text is bare. -/
structure Column (schema : Schema) where
  name : String
  keys : List String
  text : String
  declared : schema.columnText? name keys = some text
  bare : IsBare text

/-- The column that is declared under a name and the keys that follow it. -/
def Column.find? (schema : Schema) (name : String) (keys : List String) : Option (Column schema) :=
  match h : schema.columnText? name keys with
  | some text => if bare : IsBare text then some ⟨name, keys, text, h, bare⟩ else none
  | none => none

/-- The column that a tree names. The name of a feature names no column. -/
def column? (c : Compiler) (node : Node) : Option (Column c.schema) :=
  node.reference?.bind fun entry =>
    match c.feature? entry.1 with
    | some _ => none
    | none => Column.find? c.schema entry.1 entry.2

variable {c : Compiler} {node : Node} {r : Reduced Fragment} {level : Nat}

/-- A column is found under its name and keys. -/
theorem Column.find?_eq_some_iff {schema : Schema} {name : String} {keys : List String}
    {x : Column schema} : Column.find? schema name keys = some x ↔ x.name = name ∧ x.keys = keys := by
  constructor
  · intro h
    unfold Column.find? at h
    split at h
    · split at h
      · cases h
        exact ⟨rfl, rfl⟩
      · cases h
    · cases h
  · rintro ⟨rfl, rfl⟩
    unfold Column.find?
    split
    · rename_i text declared
      obtain rfl := Option.some.inj (x.declared.symm.trans declared)
      rw [dif_pos x.bare]
    · rename_i undeclared
      cases x.declared.symm.trans undeclared

/-- Columns are equal if they are declared in the same place. -/
theorem Column.eq_of_entry {schema : Schema} {x y : Column schema} (hname : x.name = y.name)
    (hkeys : x.keys = y.keys) : x = y := by
  have hx := Column.find?_eq_some_iff.mpr ⟨hname, hkeys⟩
  have hy : Column.find? schema y.name y.keys = some y := Column.find?_eq_some_iff.mpr ⟨rfl, rfl⟩
  exact Option.some.inj (hx.symm.trans hy)

/-- A tree names a column when it leads to its entry, and no feature has the name. -/
theorem column?_eq_some_iff {x : Column c.schema} :
    column? c node = some x ↔ node.reference? = some (x.name, x.keys) ∧ c.feature? x.name = none := by
  unfold column?
  rw [Option.bind_eq_some_iff]
  constructor
  · rintro ⟨entry, hentry, h⟩
    split at h
    · cases h
    · rename_i free
      obtain ⟨hname, hkeys⟩ := Column.find?_eq_some_iff.mp h
      rw [hname, hkeys]
      exact ⟨hentry, free⟩
  · rintro ⟨hentry, free⟩
    refine ⟨_, hentry, ?_⟩
    rw [free]
    exact Column.find?_eq_some_iff.mpr ⟨rfl, rfl⟩

/-- A validated tree stands for an entry of the schema: it is the text of the column, or has the shape that
is declared for the entry. -/
structure StandsFor (r : Reduced Fragment) (shape : Shape) : Prop where
  column : ∀ text, shape.columnText? = some text → r = compiled text
  other : shape.columnText? = none → r.node.literal? = none ∧ r.result.shape? = some shape

/-- An entry is spliced or stays. -/
theorem standsFor_of_splice (hdomain : c.domain = domain) {shape : Shape}
    (h : (∃ value, c.domain.splice shape = some value ∧ c.fold value = .ok r) ∨
      (c.domain.splice shape = none ∧ r.node.literal? = none ∧ r.result.shape? = some shape)) :
    StandsFor r shape := by
  rw [hdomain] at h
  rcases h with ⟨value, hsplice, hfold⟩ | ⟨hsplice, hr⟩
  · obtain ⟨text, htext, rfl⟩ := Option.map_eq_some_iff.mp ((splice_eq shape).symm.trans hsplice)
    rw [fold_text hdomain] at hfold
    cases hfold
    refine ⟨?_, ?_⟩
    · intro other hother
      cases htext.symm.trans hother
      rfl
    · intro hnone
      cases htext.symm.trans hnone
  · have hnone := Option.map_eq_none_iff.mp ((splice_eq shape).symm.trans hsplice)
    refine ⟨?_, fun _ => hr⟩
    intro text htext
    cases hnone.symm.trans htext

/-- What is no constant stands for an entry by its shape. -/
theorem StandsFor.shape?_eq {shape : Shape} (h : StandsFor r shape)
    (hliteral : ∀ value, r.node.literal? ≠ some (value, true)) :
    r.node.literal? = none ∧ r.result.shape? = some shape := by
  cases htext : shape.columnText? with
  | none => exact h.other htext
  | some text =>
      rw [h.column text htext] at hliteral
      exact absurd rfl (hliteral (.string text))

/-- A tree that names an entry of the schema is validated to what stands for the entry. The induction is
along the members. -/
theorem exists_standsFor (hdomain : c.domain = domain) {name : String} {keys : List String}
    (hentry : node.reference? = some (name, keys)) (free : c.feature? name = none)
    (h : c.reduceAt level node = .ok r) :
    ∃ shape, ((c.schema.get? name).bind fun entry => entry.lookup? (keys.map .key)) = some shape ∧
      StandsFor r shape := by
  induction node generalizing level r name keys with
  | identifier w called =>
      cases hentry
      rcases Optimizer.identifier_eq_ok (Optimizer.reduceAt_identifier_iff.mp h).2 with
        ⟨feature, known, -⟩ | ⟨shape, -, declared, hcases⟩
      · cases free.symm.trans known
      · refine ⟨shape, by rw [declared]; rfl, standsFor_of_splice hdomain ?_⟩
        rcases hcases with hspliced | ⟨hsplice, rfl⟩
        · exact .inl hspliced
        · exact .inr ⟨hsplice, rfl, rfl⟩
  | member w object path ih =>
      obtain ⟨entry, hobject, heq⟩ := Option.map_eq_some_iff.mp hentry
      cases heq
      obtain ⟨-, x, hx, h⟩ := Optimizer.reduceAt_member_iff.mp h
      obtain ⟨shape, hshape, stands⟩ := ih hobject free hx
      rcases Optimizer.member_eq_ok h with ⟨value, found, hliteral, -, -⟩ |
        ⟨declared, found, hliteral, hdeclared, leads, hcases⟩ | ⟨hliteral, hundeclared, -, -⟩
      · cases (stands.shape?_eq (by simp [hliteral])).1.symm.trans hliteral
      · cases (stands.shape?_eq (by simp [hliteral])).2.symm.trans hdeclared
        refine ⟨found, ?_, standsFor_of_splice hdomain ?_⟩
        · rw [List.map_append]
          simp only [Shape.lookup?_append, Shape.lookup?_keyText]
          rw [← Option.bind_assoc, hshape]
          exact leads
        · rcases hcases with hspliced | ⟨hsplice, rfl⟩
          · exact .inl hspliced
          · exact .inr ⟨hsplice, rfl, rfl⟩
      · cases (stands.shape?_eq (by simp [hliteral])).2.symm.trans hundeclared
  | _ => cases hentry

/-- A tree that names a column compiles to its text. -/
theorem eq_compiled_of_column? (hdomain : c.domain = domain) {x : Column c.schema}
    (hcolumn : column? c node = some x) (h : c.reduceAt level node = .ok r) : r = compiled x.text := by
  obtain ⟨hentry, free⟩ := column?_eq_some_iff.mp hcolumn
  obtain ⟨shape, hshape, stands⟩ := exists_standsFor hdomain hentry free h
  apply stands.column
  have hdeclared := x.declared
  unfold Schema.columnText? at hdeclared
  rw [← Option.bind_assoc, hshape] at hdeclared
  exact hdeclared

end Sql

end RuleLang
