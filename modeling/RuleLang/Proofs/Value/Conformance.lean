import RuleLang.Schema.Basic
import RuleLang.Scope
import RuleLang.Value.Access

/-!
# Values of declared shapes

A value conforms to a shape with members if it is an object that has all of them, each conforming in
turn. The other shapes say nothing of a value.

* `Value.getPath?_append`, `Shape.lookup?_append`: a path in two parts, one after the other.
* `Shape.Conforms`: a value conforms to a shape.
* `Shape.Conforms.exists_getPath?`: where a path leads in a shape it leads in conforming values.
* `Scope.Conforms`: a scope gives conforming values to the names of a schema.
-/

namespace RuleLang

/-- The second part of a path leads on from where the first part leads. -/
theorem Value.getPath?_append (value : Value) (path rest : Path) :
    value.getPath? (path ++ rest) = (value.getPath? path).bind fun found => found.getPath? rest := by
  induction path generalizing value with
  | nil => rfl
  | cons segment path ih =>
      rw [List.cons_append, getPath?, getPath?, Option.bind_assoc]
      exact Option.bind_congr fun next _ => ih next

namespace Shape

/-- A path leads through a shape part by part. -/
theorem lookup?_append (shape : Shape) (path rest : Path) :
    shape.lookup? (path ++ rest) = (shape.lookup? path).bind fun found => found.lookup? rest := by
  induction path generalizing shape with
  | nil => rfl
  | cons segment path ih =>
      rw [List.cons_append, lookup?, lookup?, Option.bind_assoc]
      exact Option.bind_congr fun next _ => ih next

mutual

/-- A value conforms to a shape: it has all declared members, each conforming in turn. -/
def Conforms : Shape → Value → Prop
  | object members, value => ∃ fields, value = .object fields ∧ MembersConform members fields
  | _, _ => True

/-- Among some fields are members that conform to the declared ones. -/
def MembersConform : List (String × Shape) → List (String × Value) → Prop
  | [], _ => True
  | (key, shape) :: rest, fields =>
    (∃ value, Members.find? key fields = some value ∧ Conforms shape value) ∧
      MembersConform rest fields

end

variable {shape found : Shape} {value : Value}

/-- A declared member is among the fields of a conforming object. -/
theorem MembersConform.exists_find? {members : List (String × Shape)} {fields : List (String × Value)}
    (h : MembersConform members fields) {key : String} (hfind : Members.find? key members = some found) :
    ∃ value, Members.find? key fields = some value ∧ Conforms found value := by
  induction members with
  | nil => cases hfind
  | cons member rest ih =>
      obtain ⟨name, shape⟩ := member
      rw [MembersConform] at h
      rw [Members.find?] at hfind
      by_cases hname : name = key
      · rw [if_pos hname, Option.some.injEq] at hfind
        subst hname hfind
        exact h.1
      · rw [if_neg hname] at hfind
        exact ih h.2 hfind

/-- A step that leads to a member of a shape leads to a conforming member of a value. -/
theorem Conforms.exists_get? (h : shape.Conforms value) {segment : Segment}
    (hget : shape.get? segment = some found) :
    ∃ member, value.get? segment = some member ∧ found.Conforms member := by
  cases shape with
  | object members =>
      rw [Conforms] at h
      obtain ⟨fields, rfl, hmembers⟩ := h
      exact hmembers.exists_find? hget
  | scalar typeName => cases hget
  | field column => cases hget
  | placeholder marker => cases hget

/-- Where a path leads in a shape it leads in every conforming value, and to a conforming one. -/
theorem Conforms.exists_getPath? (h : shape.Conforms value) {path : Path}
    (hlookup : shape.lookup? path = some found) :
    ∃ member, value.getPath? path = some member ∧ found.Conforms member := by
  induction path generalizing shape value with
  | nil =>
      cases hlookup
      exact ⟨value, rfl, h⟩
  | cons segment path ih =>
      obtain ⟨next, hnext, hrest⟩ := Option.bind_eq_some_iff.mp hlookup
      obtain ⟨inner, hinner, hconforms⟩ := h.exists_get? hnext
      obtain ⟨member, hmember, hfound⟩ := ih hconforms hrest
      refine ⟨member, ?_, hfound⟩
      rw [Value.getPath?, hinner]
      exact hmember

end Shape

/-- A scope gives conforming values to the names of a schema. A name that is not bound stands for the
absent value. -/
def Scope.Conforms (scope : Scope) (schema : Schema) : Prop :=
  ∀ name shape, schema.get? name = some shape → shape.Conforms ((scope.get? name).getD .undefined)

end RuleLang
