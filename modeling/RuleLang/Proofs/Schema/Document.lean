import Mathlib.Data.List.DropRight
import RuleLang.Proofs.Success
import RuleLang.Schema.Basic

/-!
# Shapes written and read again

A document declares a shape by a grammar of its own: the text of its member `type` makes it a leaf, and
any other value of that member makes `type` an ordinary member. The reader accepts that grammar and
nothing else, and writing a shape undoes reading it.

* `Json.Declares`: the documents of the grammar.
* `Shape.Canonical`: the shapes that a document can declare.
* `Shape.exists_ofJson`, `Shape.declares_of_ofJson`: the reader and the grammar accept the same documents.
* `Shape.Canonical.ofJson_toJson`, `Schema.ofJson_toJson`: reading after writing.
* `Shape.codec_exact`: all of it, for shapes and for schemas.
-/

namespace RuleLang

/-- A text that was trimmed has no blanks at its ends. -/
theorem Text.trim_trim (s : String) : trim (trim s) = trim s := by
  have hfront : ∀ cs : List Char, ((cs.dropWhile isBlank).rdropWhile isBlank).dropWhile isBlank =
      (cs.dropWhile isBlank).rdropWhile isBlank := by
    intro cs
    rw [List.dropWhile_eq_self_iff]
    intro hlength
    -- what is left after the end was trimmed starts as it did before
    have hfirst := List.IsPrefix.getElem (List.rdropWhile_prefix isBlank (cs.dropWhile isBlank)) hlength
    rw [hfirst]
    exact List.dropWhile_get_zero_not isBlank cs _
  have hchars : trimChars (trimChars s.toList) = trimChars s.toList := by
    show ((((s.toList.dropWhile isBlank).rdropWhile isBlank).dropWhile isBlank).rdropWhile isBlank) = _
    rw [hfront, List.rdropWhile_idempotent]
    rfl
  rw [trim, trim, String.toList_ofList, hchars]

/-- The documents that declare a shape. -/
inductive Json.Declares : Json → Prop where
  /-- A scalar: its type is a text that names neither a column nor a parameter. -/
  | scalar {members : List (String × Json)} {name : String}
      (htype : Members.find? "type" members = some (.string name))
      (hname : ¬ (Text.trim name = "field" ∨ Text.trim name = "placeholder")) :
      Declares (.object members)
  /-- A column or a parameter: its text stands beside its type. -/
  | verbatim {members : List (String × Json)} {name text : String}
      (htype : Members.find? "type" members = some (.string name))
      (hname : Text.trim name = "field" ∨ Text.trim name = "placeholder")
      (hvalue : Members.find? "value" members = some (.string text)) :
      Declares (.object members)
  /-- Members: `type` is no text, and may itself be one of them. -/
  | object {members : List (String × Json)}
      (htype : ∀ name, Members.find? "type" members ≠ some (.string name))
      (hmembers : ∀ m ∈ members, Declares m.2) :
      Declares (.object members)

namespace Shape

/-- The shapes that a document can declare: the type of a scalar has no blanks at its ends and names
neither a column nor a parameter. -/
inductive Canonical : Shape → Prop where
  | scalar {name : String} (htrim : Text.trim name = name)
      (hname : ¬ (name = "field" ∨ name = "placeholder")) : Canonical (scalar name)
  | field (column : String) : Canonical (field column)
  | placeholder (marker : String) : Canonical (placeholder marker)
  | object {members : List (String × Shape)} (hmembers : ∀ m ∈ members, Canonical m.2) :
      Canonical (object members)

/-! ### What the reader accepts -/

section Reading

variable {members : List (String × Json)} {json : Json} {shape : Shape} {typeName : String}

/-- The type of a leaf is the text of its member for it, without blanks at the ends. -/
theorem leafType?_eq_some_iff : leafType? members = some typeName ↔
    ∃ name, Members.find? "type" members = some (.string name) ∧ Text.trim name = typeName := by
  unfold leafType?
  split
  · rename_i name heq
    simp [heq]
  · rename_i hne
    simp only [reduceCtorEq, false_iff, not_exists, not_and]
    exact fun name heq => absurd heq (hne name)

/-- A document without a text as its type declares no leaf. -/
theorem leafType?_eq_none_iff : leafType? members = none ↔
    ∀ name, Members.find? "type" members ≠ some (.string name) := by
  rw [Option.eq_none_iff_forall_ne_some]
  constructor
  · exact fun h name heq => h _ (leafType?_eq_some_iff.mpr ⟨name, heq, rfl⟩)
  · intro h typeName heq
    obtain ⟨name, hname, -⟩ := leafType?_eq_some_iff.mp heq
    exact h name hname

/-- A document with a type declares a leaf. -/
theorem ofJson_of_some (h : leafType? members = some typeName) :
    ofJson (.object members) = leaf typeName members := by
  rw [ofJson, h]

/-- A document without a type declares an object. -/
theorem ofJson_of_none (h : leafType? members = none) :
    ofJson (.object members) = (ofMembers members).map object := by
  rw [ofJson, h]

/-- A leaf is a scalar unless its type is that of a column or a parameter. -/
theorem leaf_of_not (hname : ¬ (typeName = "field" ∨ typeName = "placeholder")) :
    leaf typeName members = .ok (scalar typeName) := by
  rw [leaf, if_neg hname]

/-- A column or a parameter is declared with its text. -/
theorem leaf_eq_ok_iff (hname : typeName = "field" ∨ typeName = "placeholder") :
    leaf typeName members = .ok shape ↔ ∃ text, Members.find? "value" members = some (.string text) ∧
      (if typeName = "field" then field text else placeholder text) = shape := by
  rw [leaf, if_pos hname]
  split
  · rename_i text heq
    simp [heq]
  · rename_i hne
    simp only [reduceCtorEq, false_iff, not_exists, not_and]
    exact fun text heq => absurd heq (hne text)

/-- Members are read one by one, under their own keys. -/
theorem ofMembers_eq_ok_iff {shapes : List (String × Shape)} : ofMembers members = .ok shapes ↔
    List.Forall₂ (fun m s => m.1 = s.1 ∧ ofJson m.2 = .ok s.2) members shapes := by
  induction members generalizing shapes with
  | nil =>
      rw [ofMembers, List.forall₂_nil_left_iff]
      exact ⟨fun h => (Except.ok.inj h).symm, fun h => h ▸ rfl⟩
  | cons head rest ih =>
      obtain ⟨key, document⟩ := head
      rw [ofMembers, List.forall₂_cons_left_iff]
      cases ofJson document with
      | error e => simp
      | ok shape =>
          simp only [map_eq_ok_iff, ih]
          constructor
          · rintro ⟨read, hrest, rfl⟩
            exact ⟨(key, shape), read, ⟨rfl, rfl⟩, hrest, rfl⟩
          · rintro ⟨⟨_, _⟩, read, ⟨rfl, hshape⟩, hrest, rfl⟩
            cases hshape
            exact ⟨read, hrest, rfl⟩

/-- Each document of the grammar is accepted. -/
theorem exists_ofJson (h : json.Declares) : ∃ shape, ofJson json = .ok shape := by
  induction h with
  | scalar htype hname =>
      rw [ofJson_of_some (leafType?_eq_some_iff.mpr ⟨_, htype, rfl⟩)]
      exact ⟨_, leaf_of_not hname⟩
  | verbatim htype hname hvalue =>
      rw [ofJson_of_some (leafType?_eq_some_iff.mpr ⟨_, htype, rfl⟩)]
      exact ⟨_, (leaf_eq_ok_iff hname).mpr ⟨_, hvalue, rfl⟩⟩
  | @object members htype _ ih =>
      have heach : ∀ m ∈ members, ∃ s : String × Shape, m.1 = s.1 ∧ ofJson m.2 = .ok s.2 := by
        intro m hm
        obtain ⟨shape, hshape⟩ := ih m hm
        exact ⟨(m.1, shape), rfl, hshape⟩
      obtain ⟨shapes, hshapes⟩ := exists_forall₂ heach
      rw [ofJson_of_none (leafType?_eq_none_iff.mpr htype)]
      exact ⟨object shapes, map_eq_ok_iff.mpr ⟨shapes, ofMembers_eq_ok_iff.mpr hshapes, rfl⟩⟩

/-- A leaf that is read was declared, and its shape is canonical. -/
theorem declares_of_leaf (htype : leafType? members = some typeName)
    (h : leaf typeName members = .ok shape) : (Json.object members).Declares ∧ shape.Canonical := by
  obtain ⟨name, hfind, rfl⟩ := leafType?_eq_some_iff.mp htype
  by_cases hname : Text.trim name = "field" ∨ Text.trim name = "placeholder"
  · obtain ⟨text, hvalue, rfl⟩ := (leaf_eq_ok_iff hname).mp h
    refine ⟨.verbatim hfind hname hvalue, ?_⟩
    split
    · exact .field text
    · exact .placeholder text
  · rw [leaf_of_not hname] at h
    cases h
    exact ⟨.scalar hfind hname, .scalar (Text.trim_trim name) hname⟩

end Reading

mutual

/-- An accepted document is one of the grammar, and what it declares is canonical. -/
theorem declares_of_ofJson :
    ∀ {json : Json} {shape : Shape}, ofJson json = .ok shape → json.Declares ∧ shape.Canonical
  | .object members, shape, h => by
      cases htype : leafType? members with
      | some typeName =>
          rw [ofJson_of_some htype] at h
          exact declares_of_leaf htype h
      | none =>
          rw [ofJson_of_none htype] at h
          obtain ⟨shapes, hshapes, rfl⟩ := map_eq_ok_iff.mp h
          obtain ⟨hmembers, hcanonical⟩ := declares_of_ofMembers hshapes
          exact ⟨.object (leafType?_eq_none_iff.mp htype) hmembers, .object hcanonical⟩
  | .null, _, h | .bool _, _, h | .integer _, _, h | .real _, _, h | .string _, _, h
  | .array _, _, h => by
      cases h

/-- Members that are read were declared, and their shapes are canonical. -/
theorem declares_of_ofMembers :
    ∀ {members : List (String × Json)} {shapes : List (String × Shape)},
      ofMembers members = .ok shapes → (∀ m ∈ members, m.2.Declares) ∧ ∀ s ∈ shapes, s.2.Canonical
  | [], shapes, h => by
      cases h
      exact ⟨List.forall_mem_nil _, List.forall_mem_nil _⟩
  | (key, json) :: rest, shapes, h => by
      rw [ofMembers] at h
      cases hjson : ofJson json with
      | error e =>
          rw [hjson] at h
          cases h
      | ok shape =>
          rw [hjson] at h
          obtain ⟨read, hrest, rfl⟩ := map_eq_ok_iff.mp h
          obtain ⟨hdeclares, hcanonical⟩ := declares_of_ofJson hjson
          obtain ⟨hdeclaresRest, hcanonicalRest⟩ := declares_of_ofMembers hrest
          exact ⟨List.forall_mem_cons.mpr ⟨hdeclares, hdeclaresRest⟩,
            List.forall_mem_cons.mpr ⟨hcanonical, hcanonicalRest⟩⟩

end

/-! ### Reading what was written -/

/-- A member of a printed shape is the printed member. -/
theorem find?_membersToJson (key : String) (members : List (String × Shape)) :
    Members.find? key (membersToJson members) = (Members.find? key members).map toJson := by
  induction members with
  | nil => rfl
  | cons head rest ih =>
      obtain ⟨k, shape⟩ := head
      by_cases hkey : k = key
      · simp [membersToJson, Members.find?, hkey]
      · simp [membersToJson, Members.find?, hkey, ih]

/-- A member named `type` is written as an object, so its owner is not taken for a leaf. -/
theorem leafType?_membersToJson (members : List (String × Shape)) :
    leafType? (membersToJson members) = none := by
  rw [leafType?_eq_none_iff]
  intro name heq
  rw [find?_membersToJson] at heq
  obtain ⟨shape, -, hshape⟩ := Option.map_eq_some_iff.mp heq
  cases shape <;> simp [toJson] at hshape

/-- Members are read back if each of them is. -/
theorem ofMembers_membersToJson {members : List (String × Shape)}
    (h : ∀ m ∈ members, ofJson m.2.toJson = .ok m.2) : ofMembers (membersToJson members) = .ok members := by
  induction members with
  | nil => rfl
  | cons head rest ih =>
      obtain ⟨key, shape⟩ := head
      rw [List.forall_mem_cons] at h
      simp only [membersToJson, ofMembers, h.1, ih h.2]
      rfl

/-- A shape that a document can declare is declared by the document it is written as. -/
theorem Canonical.ofJson_toJson {shape : Shape} (h : shape.Canonical) :
    ofJson shape.toJson = .ok shape := by
  induction h with
  | @scalar name htrim hname =>
      have htype : leafType? [("type", .string name)] = some name :=
        leafType?_eq_some_iff.mpr ⟨name, rfl, htrim⟩
      rw [toJson, ofJson_of_some htype]
      exact leaf_of_not hname
  | field column => rfl
  | placeholder marker => rfl
  | object _ ih =>
      rw [toJson, ofJson_of_none (leafType?_membersToJson _), ofMembers_membersToJson ih]
      rfl

end Shape

/-- A schema of such shapes is brought back by its document. -/
theorem Schema.ofJson_toJson {schema : Schema} (h : ∀ entry ∈ schema.entries, entry.2.Canonical) :
    Schema.ofJson schema.toJson = .ok schema := by
  have hentries : Shape.ofMembers (Shape.membersToJson schema.entries) = .ok schema.entries :=
    Shape.ofMembers_membersToJson fun entry hentry => (h entry hentry).ofJson_toJson
  rw [toJson, ofJson, hentries]
  rfl

/-- The reader accepts the documents of the grammar and no others. Writing what was read and reading it
again changes nothing, nor does it for any shape whose scalars have trimmed types that name neither
columns nor parameters, nor for any schema of such shapes. -/
theorem Shape.codec_exact :
    (∀ json : Json, (∃ shape, ofJson json = .ok shape) ↔ json.Declares) ∧
      (∀ (json : Json) (shape : Shape), ofJson json = .ok shape → ofJson shape.toJson = .ok shape) ∧
      (∀ shape : Shape, shape.Canonical → ofJson shape.toJson = .ok shape) ∧
      ∀ schema : Schema, (∀ entry ∈ schema.entries, entry.2.Canonical) →
        Schema.ofJson schema.toJson = .ok schema := by
  refine ⟨fun json => ?_, fun json shape h => ?_, fun _ h => h.ofJson_toJson,
    fun _ h => Schema.ofJson_toJson h⟩
  · constructor
    · rintro ⟨shape, hshape⟩
      exact (declares_of_ofJson hshape).1
    · exact exists_ofJson
  · exact (declares_of_ofJson h).2.ofJson_toJson

namespace Sample

/-- A column, a scalar written with a blank, and an object one of whose members is named `type`. -/
def schemaDocument : Json :=
  .object
    [("past", .object [("amount", .object [("type", .string " field"), ("value", .string "t.amount")])]),
      ("prohibitedCountries", .object [("type", .string "array ")]),
      ("trx", .object [("type", .object [("type", .string "placeholder"), ("value", .string ":type")])])]

/-- What `schemaDocument` declares. -/
def schemaShape : Shape :=
  .object
    [("past", .object [("amount", .field "t.amount")]), ("prohibitedCountries", .scalar "array"),
      ("trx", .object [("type", .placeholder ":type")])]

/-- The document is one of the grammar, and what it declares is written and read without change, as a
shape and as the entries of a schema. -/
theorem codec_exact_schemaDocument :
    schemaDocument.Declares ∧ Shape.ofJson schemaShape.toJson = .ok schemaShape ∧
      Schema.ofJson (Schema.mk [("root", schemaShape)]).toJson = .ok ⟨[("root", schemaShape)]⟩ := by
  have hread : Shape.ofJson schemaDocument = .ok schemaShape := by rfl
  have hcanonical : schemaShape.Canonical := by
    refine .object (List.forall_mem_cons.mpr ⟨.object ?_, List.forall_mem_cons.mpr ⟨?_, ?_⟩⟩)
    · exact List.forall_mem_singleton.mpr (.field "t.amount")
    · exact .scalar (by decide) (by decide)
    · exact List.forall_mem_singleton.mpr
        (.object (List.forall_mem_singleton.mpr (.placeholder ":type")))
  obtain ⟨haccepts, hread_again, -, hschema⟩ := Shape.codec_exact
  exact ⟨(haccepts schemaDocument).mp ⟨schemaShape, hread⟩, hread_again schemaDocument schemaShape hread,
    hschema _ (List.forall_mem_singleton.mpr hcanonical)⟩

end Sample

end RuleLang
