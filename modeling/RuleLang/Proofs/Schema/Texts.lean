import RuleLang.Schema.Basic

/-!
# The texts of a schema

Columns and parameters are written into SQL as they are declared; nothing else of a schema is.

* `Shape.texts`, `Schema.texts`: the texts of the columns and parameters.
* `Shape.texts_subset_of_lookup?`: a part of a shape has no texts of its own.
* `Schema.texts_subset_of_get?`: nor has an entry of a schema.
-/

namespace RuleLang

namespace Shape

mutual

/-- The texts of the columns and parameters inside a shape. -/
def texts : Shape → List String
  | scalar _ => []
  | field column => [column]
  | placeholder marker => [marker]
  | object members => memberTexts members

/-- The texts of the columns and parameters inside members. -/
def memberTexts : List (String × Shape) → List String
  | [] => []
  | (_, shape) :: rest => texts shape ++ memberTexts rest

end

/-- The texts of a member are texts of the members. -/
theorem texts_subset_of_find? {key : String} {members : List (String × Shape)} {found : Shape}
    (h : Members.find? key members = some found) : found.texts ⊆ memberTexts members := by
  induction members with
  | nil => cases h
  | cons m rest ih =>
      rw [Members.find?] at h
      rw [memberTexts]
      split at h
      · cases h
        exact List.subset_append_left _ _
      · exact List.subset_append_of_subset_right _ (ih h)

/-- A part of a shape has no texts of its own. -/
theorem texts_subset_of_lookup? {shape found : Shape} {path : Path}
    (h : shape.lookup? path = some found) :
    found.texts ⊆ shape.texts := by
  induction path generalizing shape with
  | nil =>
      cases h
      exact List.Subset.refl _
  | cons segment path ih =>
      rw [lookup?] at h
      obtain ⟨part, hpart, hfound⟩ := Option.bind_eq_some_iff.mp h
      cases shape with
      | object members => exact List.Subset.trans (ih hfound) (texts_subset_of_find? hpart)
      | _ => cases hpart

end Shape

/-- The texts of the columns and parameters inside a schema. -/
def Schema.texts (schema : Schema) : List String :=
  Shape.memberTexts schema.entries

/-- The texts of an entry are texts of the schema. -/
theorem Schema.texts_subset_of_get? {schema : Schema} {name : String} {shape : Shape}
    (h : schema.get? name = some shape) : shape.texts ⊆ schema.texts :=
  Shape.texts_subset_of_find? h

end RuleLang
