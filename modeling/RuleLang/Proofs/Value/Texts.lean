import RuleLang.Proofs.Agreement
import RuleLang.Value.Access

/-!
# Texts inside values

The outline of a value leaves out the contents of the texts inside it. Values with the same outline
differ in these texts only, and each text of one corresponds to the text in the same place of the other.

* `Value.strings`: the texts inside a value, from left to right.
* `Value.outline`: a value without the contents of its texts.
* `Value.Alike`: values that differ in texts only, with related texts in each place.
* `Value.alike_of_outline_eq`: values with the same outline are alike when their texts are related in
  order.
-/

namespace RuleLang.Value

/-- Induction over values, with the hypothesis for each item and each member. -/
@[elab_as_elim]
theorem induction {P : Value → Prop} (undefined : P .undefined) (null : P .null)
    (bool : ∀ b, P (.bool b)) (number : ∀ x, P (.number x)) (string : ∀ s, P (.string s))
    (array : ∀ items, (∀ v ∈ items, P v) → P (.array items))
    (object : ∀ members, (∀ m ∈ members, P m.2) → P (.object members)) (value : Value) : P value :=
  @Value.rec P (fun items => ∀ v ∈ items, P v) (fun members => ∀ m ∈ members, P m.2) (fun m => P m.2)
    undefined null bool number string array object (fun _ h => absurd h List.not_mem_nil)
    (fun _ _ head tail => List.forall_mem_cons.mpr ⟨head, tail⟩)
    (fun _ h => absurd h List.not_mem_nil)
    (fun _ _ head tail => List.forall_mem_cons.mpr ⟨head, tail⟩) (fun _ _ h => h) value

mutual

/-- The texts inside a value, from left to right. Keys of members are not among them. -/
def strings : Value → List String
  | undefined => []
  | null => []
  | bool _ => []
  | number _ => []
  | string s => [s]
  | array items => itemStrings items
  | object members => memberStrings members

/-- The texts inside items. -/
def itemStrings : List Value → List String
  | [] => []
  | item :: rest => strings item ++ itemStrings rest

/-- The texts inside members. -/
def memberStrings : List (String × Value) → List String
  | [] => []
  | (_, value) :: rest => strings value ++ memberStrings rest

end

mutual

/-- A value without the contents of its texts. -/
def outline : Value → Value
  | undefined => undefined
  | null => null
  | bool b => bool b
  | number x => number x
  | string _ => string ""
  | array items => array (itemOutlines items)
  | object members => object (memberOutlines members)

/-- Items without the contents of their texts. -/
def itemOutlines : List Value → List Value
  | [] => []
  | item :: rest => outline item :: itemOutlines rest

/-- Members without the contents of their texts. -/
def memberOutlines : List (String × Value) → List (String × Value)
  | [] => []
  | (key, value) :: rest => (key, outline value) :: memberOutlines rest

end

/-- The texts of items are those of each item. -/
theorem itemStrings_eq (items : List Value) : itemStrings items = items.flatMap strings := by
  induction items with
  | nil => rw [itemStrings, List.flatMap_nil]
  | cons item rest ih => rw [itemStrings, ih, List.flatMap_cons]

/-- The texts of members are those of each member. -/
theorem memberStrings_eq (members : List (String × Value)) :
    memberStrings members = members.flatMap fun m => m.2.strings := by
  induction members with
  | nil => rw [memberStrings, List.flatMap_nil]
  | cons m rest ih => rw [memberStrings, ih, List.flatMap_cons]

/-- The outlines of items are those of each item. -/
theorem itemOutlines_eq (items : List Value) : itemOutlines items = items.map outline := by
  induction items with
  | nil => rw [itemOutlines, List.map_nil]
  | cons item rest ih => rw [itemOutlines, ih, List.map_cons]

/-- The outlines of members are those of each member, with the keys. -/
theorem memberOutlines_eq (members : List (String × Value)) :
    memberOutlines members = members.map fun m => (m.1, m.2.outline) := by
  induction members with
  | nil => rw [memberOutlines, List.map_nil]
  | cons m rest ih => rw [memberOutlines, ih, List.map_cons]

/-- The outline has a text in each place where the value has one. -/
theorem strings_outline (value : Value) : value.outline.strings = value.strings.map fun _ => "" := by
  induction value using induction with
  | undefined => rfl
  | null => rfl
  | bool b => rfl
  | number x => rfl
  | string s => rfl
  | array items ih =>
      rw [outline, strings, strings, itemOutlines_eq, itemStrings_eq, itemStrings_eq, List.flatMap_map,
        List.map_flatMap]
      exact List.flatMap_congr ih
  | object members ih =>
      rw [outline, strings, strings, memberOutlines_eq, memberStrings_eq, memberStrings_eq,
        List.flatMap_map, List.map_flatMap]
      exact List.flatMap_congr ih

/-- Values with the same outline have as many texts. -/
theorem length_strings_eq {v v' : Value} (h : v.outline = v'.outline) :
    v.strings.length = v'.strings.length := by
  have hstrings := congrArg (fun x => x.strings.length) h
  simpa only [strings_outline, List.length_map] using hstrings

/-- Values that differ in texts only, with related texts in each place. -/
inductive Alike (R : String → String → Prop) : Value → Value → Prop
  | undefined : Alike R .undefined .undefined
  | null : Alike R .null .null
  | bool (b : Bool) : Alike R (.bool b) (.bool b)
  | number (x : Float) : Alike R (.number x) (.number x)
  | string {s t : String} (h : R s t) : Alike R (.string s) (.string t)
  | array {vs vs' : List Value} (h : List.Forall₂ (Alike R) vs vs') : Alike R (.array vs) (.array vs')
  | object {ms ms' : List (String × Value)} (keys : ms.map Prod.fst = ms'.map Prod.fst)
      (h : List.Forall₂ (Alike R) (ms.map Prod.snd) (ms'.map Prod.snd)) :
      Alike R (.object ms) (.object ms')

variable {R : String → String → Prop} {v v' : Value}

/-- Values with the same outline are alike when their texts are related in order. -/
theorem alike_of_outline_eq (h : v.outline = v'.outline)
    (hstrings : List.Forall₂ R v.strings v'.strings) :
    Alike R v v' := by
  induction v using induction generalizing v' with
  | undefined =>
      cases v' with
      | undefined => exact .undefined
      | _ => cases h
  | null =>
      cases v' with
      | null => exact .null
      | _ => cases h
  | bool b =>
      cases v' with
      | bool b' => cases h; exact .bool b
      | _ => cases h
  | number x =>
      cases v' with
      | number x' => cases h; exact .number x
      | _ => cases h
  | string s =>
      cases v' with
      | string t =>
          rw [strings, strings, List.forall₂_cons] at hstrings
          exact .string hstrings.1
      | _ => cases h
  | array items ih =>
      cases v' with
      | array items' =>
          rw [outline, outline, itemOutlines_eq, itemOutlines_eq, Value.array.injEq] at h
          rw [strings, strings, itemStrings_eq, itemStrings_eq] at hstrings
          exact .array (forall₂_of_flatMap (fun _ _ => length_strings_eq)
            (fun v hv v' => ih v hv) h hstrings)
      | _ => cases h
  | object members ih =>
      cases v' with
      | object members' =>
          rw [outline, outline, memberOutlines_eq, memberOutlines_eq, Value.object.injEq] at h
          rw [strings, strings, memberStrings_eq, memberStrings_eq] at hstrings
          have keys := congrArg (List.map Prod.fst) h
          rw [List.map_map, List.map_map] at keys
          refine .object keys ?_
          rw [List.forall₂_map_left_iff, List.forall₂_map_right_iff]
          refine forall₂_of_flatMap (fun m m' heq => ?_) (fun m hm m' heq => ?_) h hstrings
          · exact length_strings_eq (congrArg Prod.snd heq)
          · exact ih m hm (congrArg Prod.snd heq)
      | _ => cases h

/-- A text counts as true by being there, so alike values are equally true. -/
theorem Alike.isTruthy_eq (hR : ∀ s t, R s t → s.isEmpty = t.isEmpty) (h : Alike R v v') :
    v.isTruthy = v'.isTruthy := by
  cases h with
  | string h => rw [isTruthy, isTruthy, hR _ _ h]
  | _ => rfl

/-- Members with the same keys and values that are alike lead to values that are alike. -/
theorem rel_find?_of_alike {ms ms' : List (String × Value)} (keys : ms.map Prod.fst = ms'.map Prod.fst)
    (h : List.Forall₂ (Alike R) (ms.map Prod.snd) (ms'.map Prod.snd)) (key : String) :
    Option.Rel (Alike R) (Members.find? key ms) (Members.find? key ms') := by
  induction ms generalizing ms' with
  | nil =>
      rw [List.map_nil] at keys
      rw [List.map_eq_nil_iff.mp keys.symm]
      exact .none
  | cons m ms ih =>
      cases ms' with
      | nil => cases keys
      | cons m' ms' =>
          rw [List.map_cons, List.map_cons, List.cons.injEq] at keys
          rw [List.map_cons, List.map_cons, List.forall₂_cons] at h
          rw [Members.find?, Members.find?, keys.1]
          split
          · exact .some h.1
          · exact ih keys.2 h.2

/-- The members of alike values are alike. -/
theorem Alike.rel_get? (h : Alike R v v') (segment : Segment) :
    Option.Rel (Alike R) (v.get? segment) (v'.get? segment) := by
  cases h with
  | array h =>
      rw [get?, get?]
      cases segment.position? with
      | none => exact .none
      | some i => exact rel_getElem? h i
  | object keys h => exact rel_find?_of_alike keys h _
  | _ => exact .none

/-- A path leads to values that are alike in values that are alike. -/
theorem Alike.rel_getPath? (h : Alike R v v') (path : Path) :
    Option.Rel (Alike R) (v.getPath? path) (v'.getPath? path) := by
  induction path generalizing v v' with
  | nil => exact .some h
  | cons segment path ih =>
      rw [getPath?, getPath?]
      exact rel_bind (h.rel_get? segment) fun _ _ hmember => ih hmember

end RuleLang.Value
