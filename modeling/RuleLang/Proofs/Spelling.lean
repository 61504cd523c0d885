import Mathlib.Data.List.Basic
import RuleLang.Proofs.Value.Conformance

/-!
# The spelling of a step

A step may count an index or name the key that is its decimal text. An object finds an index under its
text, and an array reads a key as the index that it writes, so that both spellings lead to the same place.

* `readIndex?_indexText`: the text of an index is read as that index.
* `Segment.spelledOut`, `Path.spelledOut`: a step as a key, and a path with a set of its steps as keys.
* `Path.leads_spelledOut`: values and shapes do not tell the spellings of a path apart.
-/

namespace RuleLang

/-- Digits without a sign are read as the number that they write, up to the largest index. -/
theorem readIndex?_ofList {cs : List Char} (nonempty : cs ≠ []) (digits : ∀ c ∈ cs, c.isDigit) :
    readIndex? (String.ofList cs) =
      if Nat.ofDigitChars 10 cs 0 ≤ largestIndex then some (Nat.ofDigitChars 10 cs 0) else none := by
  have hall : cs.all Char.isDigit := List.all_eq_true.mpr digits
  have hvalue : cs.foldl (fun n c => n * 10 + (c.toNat - '0'.toNat)) 0 = Nat.ofDigitChars 10 cs 0 := by
    simp only [Nat.ofDigitChars_eq_foldl, Nat.mul_comm 10]
  unfold readIndex?
  rw [String.toList_ofList]
  split
  · have hsign := digits '+' List.mem_cons_self
    exact absurd hsign (by decide)
  · rw [← hvalue]
    simp [hall, nonempty]

/-- The text of an index is read as that index. -/
theorem readIndex?_indexText {i : Nat} (h : i ≤ largestIndex) : readIndex? (indexText i) = some i := by
  have nonempty : Number.decimalDigits i ≠ [] := Nat.toDigits_ne_nil
  have digits : ∀ c ∈ Number.decimalDigits i, c.isDigit := fun c hc =>
    Nat.isDigit_of_mem_toDigits (by decide) (by decide) hc
  have hvalue : Nat.ofDigitChars 10 (Number.decimalDigits i) 0 = i :=
    Nat.ofDigitChars_toDigits (by decide) (by decide)
  rw [indexText, readIndex?_ofList nonempty digits, hvalue, if_pos h]

/-- A step as the key under which an object finds it. -/
def Segment.spelledOut (segment : Segment) : Segment :=
  .key segment.keyText

/-- A step counts no index beyond the largest one. -/
def Segment.IsAddressable : Segment → Prop
  | index i => i ≤ largestIndex
  | key _ => True

namespace Path

/-- A path with the steps at some positions spelled out as keys. -/
def spelledOut (chosen : Nat → Bool) (path : Path) : Path :=
  path.mapIdx fun k segment => if chosen k then segment.spelledOut else segment

/-- A path is spelled out segment by segment. -/
@[simp] theorem spelledOut_cons (chosen : Nat → Bool) (segment : Segment) (path : Path) :
    spelledOut chosen (segment :: path) =
      (if chosen 0 then segment.spelledOut else segment) :: spelledOut (fun k => chosen (k + 1)) path :=
  List.mapIdx_cons

end Path

/-! ### One step -/

/-- A key that spells an index counts it. -/
theorem Segment.position?_spelledOut {segment : Segment} (h : segment.IsAddressable) :
    segment.spelledOut.position? = segment.position? := by
  cases segment with
  | index i => exact readIndex?_indexText h
  | key name => rfl

/-- A key that spells out an index leads to the same element of a value. -/
theorem Value.get?_spelledOut (value : Value) {segment : Segment} (h : segment.IsAddressable) :
    value.get? segment.spelledOut = value.get? segment := by
  cases value with
  | array items => rw [get?, get?, Segment.position?_spelledOut h]
  | _ => rfl

/-- A key that spells out an index leads to the same member of a shape. -/
theorem Shape.get?_spelledOut (shape : Shape) (segment : Segment) :
    shape.get? segment.spelledOut = shape.get? segment := by
  cases shape <;> rfl

/-! ### Paths -/

/-- A path with indices spelled out leads to the same member of a value. -/
theorem Value.getPath?_spelledOut (value : Value) (chosen : Nat → Bool) {path : Path}
    (h : ∀ segment ∈ path, segment.IsAddressable) :
    value.getPath? (path.spelledOut chosen) = value.getPath? path := by
  induction path generalizing value chosen with
  | nil => rfl
  | cons segment path ih =>
      rw [List.forall_mem_cons] at h
      have hstep : value.get? (if chosen 0 then segment.spelledOut else segment) = value.get? segment := by
        split
        · exact value.get?_spelledOut h.1
        · rfl
      rw [Path.spelledOut_cons, getPath?, getPath?, hstep]
      exact Option.bind_congr fun next _ => ih next _ h.2

/-- A path with indices spelled out leads to the same member of a shape. -/
theorem Shape.lookup?_spelledOut (shape : Shape) (chosen : Nat → Bool) (path : Path) :
    shape.lookup? (path.spelledOut chosen) = shape.lookup? path := by
  induction path generalizing shape chosen with
  | nil => rfl
  | cons segment path ih =>
      have hstep : shape.get? (if chosen 0 then segment.spelledOut else segment) = shape.get? segment := by
        split
        · exact shape.get?_spelledOut segment
        · rfl
      rw [Path.spelledOut_cons, lookup?, lookup?, hstep]
      exact Option.bind_congr fun next _ => ih next _

/-- **The spelling of a step does not matter.** Whichever indices of a path are spelled out as keys, it leads
to the same place in every value and in every shape. Where a shape has been found to hold one spelling,
each value of that shape holds every other one. -/
theorem Path.leads_spelledOut (path : Path) (addressable : ∀ segment ∈ path, segment.IsAddressable)
    (chosen : Nat → Bool) :
    (∀ value : Value, value.getPath? (path.spelledOut chosen) = value.getPath? path) ∧
      (∀ shape : Shape, shape.lookup? (path.spelledOut chosen) = shape.lookup? path) ∧
      ∀ (shape : Shape) (value : Value) (found : Shape), shape.Conforms value →
        shape.lookup? (path.spelledOut chosen) = some found → ∀ other : Nat → Bool,
          ∃ member, value.getPath? (path.spelledOut other) = some member ∧ found.Conforms member := by
  refine ⟨fun value => value.getPath?_spelledOut chosen addressable,
    fun shape => shape.lookup?_spelledOut chosen path, ?_⟩
  intro shape value found conforms leads other
  rw [shape.lookup?_spelledOut] at leads
  rw [value.getPath?_spelledOut other addressable]
  exact conforms.exists_getPath? leads

/-- The largest index as the key of an object, and an index into the array under it. -/
theorem Path.leads_spelledOut_largestIndex :
    (∀ segment ∈ [Segment.index largestIndex, .index 1], segment.IsAddressable) ∧
      Path.spelledOut (fun _ => true) [.index largestIndex, .index 1] =
        [.key "18446744073709551615", .key "1"] ∧
      ∀ items : List Value, (Value.object [("18446744073709551615", .array items)]).getPath?
        [.key "18446744073709551615", .key "1"] = items[1]? := by
  have addressable : ∀ segment ∈ [Segment.index largestIndex, .index 1], segment.IsAddressable := by
    simp [Segment.IsAddressable, largestIndex]
  have hspelled : Path.spelledOut (fun _ => true) [.index largestIndex, .index 1] =
      [.key "18446744073709551615", .key "1"] := by decide
  refine ⟨addressable, hspelled, fun items => ?_⟩
  have hleads := (Path.leads_spelledOut _ addressable fun _ => true).1
    (.object [("18446744073709551615", .array items)])
  rw [hspelled] at hleads
  exact hleads.trans (by cases items with
    | nil => rfl
    | cons item items => cases items <;> rfl)

end RuleLang
