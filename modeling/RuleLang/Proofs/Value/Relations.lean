import RuleLang.Proofs.Number.Comparison
import RuleLang.Proofs.Success
import RuleLang.Proofs.Value.Texts
import RuleLang.Value.Operation

/-!
# The laws of the relations between values

Equality after coercion is given by rules, of which the first that applies counts; some of them coerce one
side and start again. The rules come to an end on every pair of values, after at most three coercions, and
answer what equality after coercion answers. Equality of content is an equivalence, which lies within
equality after coercion but for what is not a number, and the comparison of two values turns around with
them.

* `Value.compare?_swap`: the comparison in the other order.
* `Value.strictEq_self`, `Value.strictEq_symm`, `Value.strictEq_trans`: equality of content.
* `Value.Equates`, `Value.equates_iff`: the rules of equality after coercion, and what they decide.
* `Value.looseEq_of_strictEq`: values of equal content.
* `Value.lawful_relations`: the laws together.
-/

namespace RuleLang.Value

variable {a b c : Value}

/-! ### Comparison -/

/-- Numbers are compared as their parts are. -/
theorem compareNumbers?_eq (x y : Float) :
    compareNumbers? x y = x.toModel.unpack.compare y.toModel.unpack := by
  have hgt : y < x ↔ x.toModel.unpack.compare y.toModel.unpack = some .gt := by
    rw [Number.lt_iff, Number.compare_swap, Option.map_eq_some_iff]
    constructor
    · rintro ⟨o, ho, hswap⟩
      rw [ho, Ordering.swap_eq_lt.mp hswap]
    · exact fun h => ⟨.gt, h, rfl⟩
  simp only [compareNumbers?, Number.lt_iff, hgt, Number.beq_iff]
  cases x.toModel.unpack.compare y.toModel.unpack with
  | none => rfl
  | some o => cases o <;> rfl

/-- Compared the other way round, numbers compare the other way round. -/
theorem compareNumbers?_swap (x y : Float) :
    compareNumbers? y x = (compareNumbers? x y).map Ordering.swap := by
  rw [compareNumbers?_eq, compareNumbers?_eq, Number.compare_swap]

/-- Compared the other way round, values compare the other way round. -/
theorem compare?_swap (a b : Value) : b.compare? a = (a.compare? b).map Ordering.swap := by
  have htexts (s t : String) : compareOfLessAndEq t s = (compareOfLessAndEq s t).swap :=
    Std.OrientedOrd.eq_swap (α := String)
  rw [compare?, compare?]
  split
  · rename_i s t hs ht
    simp only [hs, ht]
    rw [htexts]
    rfl
  · rename_i hboth
    split
    · rename_i s t hs ht
      exact absurd hs (hboth _ _ ht)
    · exact compareNumbers?_swap _ _

/-- One value is greater than another if the other is less. -/
theorem less_apply_swap (a b : Value) : BinaryOp.greater.apply b a = BinaryOp.less.apply a b := by
  simp only [BinaryOp.apply, compare?_swap a b]
  rcases a.compare? b with _ | _ | _ | _ <;> rfl

/-- One value is at least another if the other is at most the one. -/
theorem lessEq_apply_swap (a b : Value) : BinaryOp.greaterEq.apply b a = BinaryOp.lessEq.apply a b := by
  simp only [BinaryOp.apply, compare?_swap a b]
  rcases a.compare? b with _ | _ | _ | _ <;> rfl

/-! ### Equality of content -/

/-- Sameness of numbers is symmetric. -/
theorem sameNumber_comm (x y : Float) : sameNumber x y = sameNumber y x := by
  rw [sameNumber, sameNumber, BEq.comm, Bool.and_comm]

/-- Every number is the same as itself, also what is not a number. -/
theorem sameNumber_self (x : Float) : sameNumber x x = true := by
  by_cases h : x.isNaN
  · simp only [sameNumber, h, Bool.and_self, Bool.or_true]
  · have hself : x == x := Float.beq_self_iff.mpr fun hnan => h (by simp [hnan])
    simp only [sameNumber, hself, Bool.true_or]

/-- Sameness of numbers is transitive. -/
theorem sameNumber_trans {x y z : Float} (h : sameNumber x y) (h' : sameNumber y z) :
    sameNumber x z := by
  simp only [sameNumber, Bool.or_eq_true, Bool.and_eq_true] at h h' ⊢
  -- What is not a number equals no double, so both steps are of one kind.
  have hnan {u v : Float} (huv : u == v) : u.isNaN = false ∧ v.isNaN = false := by
    obtain ⟨hu, hv, -⟩ := Float.beq_iff_ne_nan_and_eq.mp huv
    simp [hu, hv]
  rcases h with h | ⟨hx, hy⟩
  · rcases h' with h' | ⟨hy, -⟩
    · exact .inl (BEq.trans h h')
    · rw [(hnan h).2] at hy
      cases hy
  · rcases h' with h' | ⟨-, hz⟩
    · rw [(hnan h').1] at hy
      cases hy
    · exact .inr ⟨hx, hz⟩

/-- Two relations side by side along three lists make a third one. -/
theorem forall₂_trans_of_mem {α β γ : Type} {R : α → β → Prop} {S : β → γ → Prop} {T : α → γ → Prop}
    {xs : List α} {ys : List β} {zs : List γ} (h : List.Forall₂ R xs ys) (h' : List.Forall₂ S ys zs)
    (htrans : ∀ x ∈ xs, ∀ y z, R x y → S y z → T x z) : List.Forall₂ T xs zs := by
  induction h generalizing zs with
  | nil =>
      cases h'
      exact .nil
  | cons head tail ih =>
      cases h' with
      | cons head' tail' =>
          rw [List.forall_mem_cons] at htrans
          exact .cons (htrans.1 _ _ head head') (ih tail' htrans.2)

-- The equations of the equality are derived once, ahead of the lemmas that rewrite with them.
attribute [local simp] strictEq strictEqItems strictEqMembers

/-- Items are strictly equal if they are so one by one. -/
theorem strictEqItems_iff {xs ys : List Value} :
    strictEqItems xs ys ↔ List.Forall₂ (fun x y => x.strictEq y) xs ys := by
  induction xs generalizing ys with
  | nil => cases ys <;> simp
  | cons x xs ih => cases ys <;> simp [ih]

/-- Members are strictly equal if they have the same keys and strictly equal values. -/
theorem strictEqMembers_iff {xs ys : List (String × Value)} :
    strictEqMembers xs ys ↔ List.Forall₂ (fun m n => m.1 = n.1 ∧ m.2.strictEq n.2) xs ys := by
  induction xs generalizing ys with
  | nil => cases ys <;> simp
  | cons m xs ih => cases ys <;> simp [ih, and_assoc]

/-- Nothing but itself is strictly equal to what is undefined. -/
theorem undefined_strictEq_iff : undefined.strictEq b ↔ b = undefined := by
  cases b <;> simp

/-- Nothing but itself is strictly equal to null. -/
theorem null_strictEq_iff : null.strictEq b ↔ b = null := by
  cases b <;> simp

/-- Nothing but itself is strictly equal to a truth value. -/
theorem bool_strictEq_iff {p : Bool} : (bool p).strictEq b ↔ b = bool p := by
  cases b <;> simp [eq_comm (a := p)]

/-- Nothing but itself is strictly equal to a text. -/
theorem string_strictEq_iff {s : String} : (string s).strictEq b ↔ b = string s := by
  cases b <;> simp [eq_comm (a := s)]

/-- The numbers that are the same are strictly equal to a number. -/
theorem number_strictEq_iff {x : Float} :
    (number x).strictEq b ↔ ∃ y, b = number y ∧ sameNumber x y := by
  cases b <;> simp

/-- The arrays of strictly equal items are strictly equal to an array. -/
theorem array_strictEq_iff {xs : List Value} :
    (array xs).strictEq b ↔ ∃ ys, b = array ys ∧ List.Forall₂ (fun x y => x.strictEq y) xs ys := by
  cases b <;> simp [strictEqItems_iff]

/-- The objects with the same keys and strictly equal values are strictly equal to an object. -/
theorem object_strictEq_iff {xs : List (String × Value)} :
    (object xs).strictEq b ↔
      ∃ ys, b = object ys ∧ List.Forall₂ (fun m n => m.1 = n.1 ∧ m.2.strictEq n.2) xs ys := by
  cases b <;> simp [strictEqMembers_iff]

/-- Strict equality is reflexive. -/
theorem strictEq_self (a : Value) : a.strictEq a := by
  induction a using induction with
  | undefined => rfl
  | null => rfl
  | bool p => exact bool_strictEq_iff.mpr rfl
  | number x => exact sameNumber_self x
  | string s => exact string_strictEq_iff.mpr rfl
  | array items ih => exact array_strictEq_iff.mpr ⟨items, rfl, List.forall₂_same.mpr ih⟩
  | object members ih =>
      exact object_strictEq_iff.mpr
        ⟨members, rfl, List.forall₂_same.mpr fun m hm => ⟨rfl, ih m hm⟩⟩

/-- Strict equality is symmetric. -/
theorem strictEq_symm (h : a.strictEq b) : b.strictEq a := by
  induction a using induction generalizing b with
  | undefined =>
      rw [undefined_strictEq_iff.mp h]
      rfl
  | null =>
      rw [null_strictEq_iff.mp h]
      rfl
  | bool p =>
      rw [bool_strictEq_iff.mp h]
      exact strictEq_self _
  | string s =>
      rw [string_strictEq_iff.mp h]
      exact strictEq_self _
  | number x =>
      obtain ⟨y, rfl, hxy⟩ := number_strictEq_iff.mp h
      exact number_strictEq_iff.mpr ⟨x, rfl, sameNumber_comm x y ▸ hxy⟩
  | array items ih =>
      obtain ⟨others, rfl, hall⟩ := array_strictEq_iff.mp h
      refine array_strictEq_iff.mpr ⟨items, rfl, List.Forall₂.flip ?_⟩
      exact forall₂_imp_of_mem hall fun x hx y hxy => ih x hx hxy
  | object members ih =>
      obtain ⟨others, rfl, hall⟩ := object_strictEq_iff.mp h
      refine object_strictEq_iff.mpr ⟨members, rfl, List.Forall₂.flip ?_⟩
      exact forall₂_imp_of_mem hall fun m hm n hmn => ⟨hmn.1.symm, ih m hm hmn.2⟩

/-- Strict equality is transitive. -/
theorem strictEq_trans (h : a.strictEq b) (h' : b.strictEq c) : a.strictEq c := by
  induction a using induction generalizing b c with
  | undefined =>
      rw [undefined_strictEq_iff.mp h] at h'
      exact h'
  | null =>
      rw [null_strictEq_iff.mp h] at h'
      exact h'
  | bool p =>
      rw [bool_strictEq_iff.mp h] at h'
      exact h'
  | string s =>
      rw [string_strictEq_iff.mp h] at h'
      exact h'
  | number x =>
      obtain ⟨y, rfl, hxy⟩ := number_strictEq_iff.mp h
      obtain ⟨z, rfl, hyz⟩ := number_strictEq_iff.mp h'
      exact number_strictEq_iff.mpr ⟨z, rfl, sameNumber_trans hxy hyz⟩
  | array items ih =>
      obtain ⟨others, rfl, hall⟩ := array_strictEq_iff.mp h
      obtain ⟨lasts, rfl, hall'⟩ := array_strictEq_iff.mp h'
      refine array_strictEq_iff.mpr ⟨lasts, rfl, forall₂_trans_of_mem hall hall' ?_⟩
      exact fun x hx y z => ih x hx
  | object members ih =>
      obtain ⟨others, rfl, hall⟩ := object_strictEq_iff.mp h
      obtain ⟨lasts, rfl, hall'⟩ := object_strictEq_iff.mp h'
      refine object_strictEq_iff.mpr ⟨lasts, rfl, forall₂_trans_of_mem hall hall' ?_⟩
      exact fun m hm n k hmn hnk => ⟨hmn.1.trans hnk.1, ih m hm hmn.2 hnk.2⟩

/-- It does not matter on which side of strict equality a value stands. -/
theorem strictEq_comm (a b : Value) : a.strictEq b = b.strictEq a :=
  Bool.eq_iff_iff.mpr ⟨strictEq_symm, strictEq_symm⟩

/-! ### Equality after coercion -/

/-- Neither an absence nor a truth value. -/
def isSubstantial : Value → Bool
  | undefined => false
  | null => false
  | bool _ => false
  | _ => true

/-- An array or an object. -/
def isComposite : Value → Bool
  | array _ => true
  | object _ => true
  | _ => false

/-- The rules of equality after coercion, and what each of them answers. The first one that applies
counts: absences are compared first, then two values of one kind, then a truth value becomes its number,
then a text is read beside a number, and then an array or object becomes its text. -/
inductive Equates : Value → Value → Bool → Prop
  | absences {a b : Value} (left : a.isNullish) (right : b.isNullish) : Equates a b true
  | absence {a b : Value} (one : a.isNullish ≠ b.isNullish) : Equates a b false
  | numbers (x y : Float) : Equates (number x) (number y) (x == y)
  | strings (s t : String) : Equates (string s) (string t) (s == t)
  | bools (p q : Bool) : Equates (bool p) (bool q) (p == q)
  | arrays (xs ys : List Value) :
      Equates (array xs) (array ys) ((array xs).strictEq (array ys))
  | objects (xs ys : List (String × Value)) :
      Equates (object xs) (object ys) ((object xs).strictEq (object ys))
  | leftBool {p : Bool} {b : Value} {r : Bool} (other : b.isSubstantial)
      (rest : Equates (number (bool p).toNumber) b r) : Equates (bool p) b r
  | rightBool {a : Value} {q r : Bool} (other : a.isSubstantial)
      (rest : Equates a (number (bool q).toNumber) r) : Equates a (bool q) r
  | numberString (x : Float) (t : String) :
      Equates (number x) (string t) (x == (string t).toNumber)
  | stringNumber (s : String) (y : Float) :
      Equates (string s) (number y) ((string s).toNumber == y)
  | leftComposite {a b : Value} {r : Bool} (composite : a.isComposite) (other : b.isSubstantial)
      (kind : a.typeName ≠ b.typeName) (rest : Equates (string a.text) b r) : Equates a b r
  | rightComposite {a b : Value} {r : Bool} (other : a.isSubstantial) (flat : ¬ a.isComposite)
      (composite : b.isComposite) (rest : Equates a (string b.text) r) : Equates a b r

/-- It does not matter on which side of a comparison of comparands one stands. -/
theorem comparandEq_comm (a b : Value) : comparandEq a b = comparandEq b a := by
  cases a <;> cases b <;> first | rfl | exact BEq.comm

/-- It does not matter on which side of equality after coercion a value stands. -/
theorem looseEq_comm (a b : Value) : a.looseEq b = b.looseEq a := by
  have hcomparands : comparandEq a.comparand b.comparand = comparandEq b.comparand a.comparand :=
    comparandEq_comm _ _
  cases a with
  | undefined | null => cases b <;> rfl
  | bool p =>
      cases b with
      | undefined | null => rfl
      | bool q => exact BEq.comm
      | _ => exact hcomparands
  | number x | string s =>
      cases b with
      | undefined | null => rfl
      | _ => exact hcomparands
  | array xs =>
      cases b with
      | undefined | null => rfl
      | array ys => exact strictEq_comm _ _
      | _ => exact hcomparands
  | object xs =>
      cases b with
      | undefined | null => rfl
      | object ys => exact strictEq_comm _ _
      | _ => exact hcomparands

/-- A truth value beside another kind is compared as its number. -/
theorem bool_looseEq {p : Bool} {b : Value} (other : b.isSubstantial) :
    (bool p).looseEq b = (number (bool p).toNumber).looseEq b := by
  cases b <;> first | rfl | cases other

/-- An array or object beside another kind is compared as its text. -/
theorem composite_looseEq (composite : a.isComposite) (other : b.isSubstantial)
    (kind : a.typeName ≠ b.typeName) : a.looseEq b = (string a.text).looseEq b := by
  cases a with
  | array xs =>
      cases b with
      | undefined | null | bool q => cases other
      | array ys => exact absurd rfl kind
      | _ => rfl
  | object xs =>
      cases b with
      | undefined | null | bool q => cases other
      | object ys => exact absurd rfl kind
      | _ => rfl
  | _ => cases composite

/-- Arrays and objects have other types than what is neither. -/
theorem typeName_ne_of_isComposite (composite : a.isComposite) (flat : ¬ b.isComposite) :
    a.typeName ≠ b.typeName := by
  cases a with
  | array xs =>
      cases b with
      | array ys | object ys => exact absurd rfl flat
      | _ => simp [typeName]
  | object xs =>
      cases b with
      | array ys | object ys => exact absurd rfl flat
      | _ => simp [typeName]
  | _ => cases composite

/-- Equality after coercion answers as its rules do. -/
theorem looseEq_of_equates {r : Bool} (h : Equates a b r) : a.looseEq b = r := by
  induction h with
  | absences left right => simp [looseEq, left, right]
  | @absence a b one =>
      cases a <;> cases b <;> first | rfl | exact absurd rfl one
  | numbers x y => rfl
  | strings s t => rfl
  | bools p q => rfl
  | arrays xs ys => rfl
  | objects xs ys => rfl
  | leftBool other rest ih => rw [bool_looseEq other, ih]
  | @rightBool a q r other rest ih => rw [looseEq_comm, bool_looseEq other, looseEq_comm, ih]
  | numberString x t => rfl
  | stringNumber s y => rfl
  | leftComposite composite other kind rest ih => rw [composite_looseEq composite other kind, ih]
  | @rightComposite a b r other flat composite rest ih =>
      rw [looseEq_comm, composite_looseEq composite other (typeName_ne_of_isComposite composite flat),
        looseEq_comm, ih]

/-- Beside a text the rules answer after at most one coercion. -/
theorem exists_equates_string (s : String) (other : b.isSubstantial) :
    ∃ r, Equates (string s) b r := by
  cases b with
  | undefined | null | bool q => cases other
  | number y => exact ⟨_, .stringNumber s y⟩
  | string t => exact ⟨_, .strings s t⟩
  | array ys | object ys => exact ⟨_, .rightComposite rfl nofun rfl (.strings s _)⟩

/-- Beside a number the rules answer after at most one coercion. -/
theorem exists_equates_number (x : Float) (other : b.isSubstantial) :
    ∃ r, Equates (number x) b r := by
  cases b with
  | undefined | null | bool q => cases other
  | number y => exact ⟨_, .numbers x y⟩
  | string t => exact ⟨_, .numberString x t⟩
  | array ys | object ys => exact ⟨_, .rightComposite rfl nofun rfl (.numberString x _)⟩

/-- Between values that are neither absent nor truth values the rules answer after at most two
coercions. -/
theorem exists_equates_of_isSubstantial (left : a.isSubstantial) (right : b.isSubstantial) :
    ∃ r, Equates a b r := by
  cases a with
  | undefined | null | bool p => cases left
  | number x => exact exists_equates_number x right
  | string s => exact exists_equates_string s right
  | array xs =>
      cases b with
      | undefined | null | bool q => cases right
      | array ys => exact ⟨_, .arrays xs ys⟩
      | _ =>
          obtain ⟨r, hr⟩ := exists_equates_string (array xs).text right
          exact ⟨r, .leftComposite rfl right (by simp [typeName]) hr⟩
  | object xs =>
      cases b with
      | undefined | null | bool q => cases right
      | object ys => exact ⟨_, .objects xs ys⟩
      | _ =>
          obtain ⟨r, hr⟩ := exists_equates_string (object xs).text right
          exact ⟨r, .leftComposite rfl right (by simp [typeName]) hr⟩

/-- The rules come to an end on every pair of values. -/
theorem exists_equates (a b : Value) : ∃ r, Equates a b r := by
  by_cases left : a.isSubstantial
  · by_cases right : b.isSubstantial
    · exact exists_equates_of_isSubstantial left right
    · cases b with
      | undefined | null =>
          have hpresent : a.isNullish = false := by cases a <;> first | rfl | cases left
          exact ⟨false, .absence (by rw [hpresent]; exact Bool.false_ne_true)⟩
      | bool q =>
          obtain ⟨r, hr⟩ := exists_equates_of_isSubstantial left
            (rfl : (number (bool q).toNumber).isSubstantial = true)
          exact ⟨r, .rightBool left hr⟩
      | _ => exact absurd rfl right
  · cases a with
    | undefined | null =>
        cases b with
        | undefined | null => exact ⟨true, .absences rfl rfl⟩
        | _ => exact ⟨false, .absence (by simp [isNullish])⟩
    | bool p =>
        cases b with
        | undefined | null => exact ⟨false, .absence (by simp [isNullish])⟩
        | bool q => exact ⟨_, .bools p q⟩
        | number y =>
            exact ⟨_, .leftBool rfl (.numbers _ y)⟩
        | string t =>
            exact ⟨_, .leftBool rfl (.numberString _ t)⟩
        | array ys | object ys =>
            exact ⟨_, .leftBool rfl (.rightComposite rfl nofun rfl (.numberString _ _))⟩
    | _ => exact absurd rfl left

/-- The rules answer what equality after coercion answers, and nothing else. -/
theorem equates_iff {r : Bool} : Equates a b r ↔ a.looseEq b = r := by
  constructor
  · exact looseEq_of_equates
  · rintro rfl
    obtain ⟨r, hr⟩ := exists_equates a b
    rwa [looseEq_of_equates hr]

/-- Values of equal content are equal after coercion, but for what is not a number. -/
theorem looseEq_of_strictEq (h : a.strictEq b) (hnan : ∀ x, a = number x → x.isNaN = false) :
    a.looseEq b := by
  cases a with
  | undefined =>
      rw [undefined_strictEq_iff.mp h]
      rfl
  | null =>
      rw [null_strictEq_iff.mp h]
      rfl
  | bool p =>
      rw [bool_strictEq_iff.mp h]
      exact beq_self_eq_true p
  | string s =>
      rw [string_strictEq_iff.mp h]
      exact beq_self_eq_true s
  | number x =>
      obtain ⟨y, rfl, hxy⟩ := number_strictEq_iff.mp h
      simp only [sameNumber, hnan x rfl, Bool.false_and, Bool.or_false] at hxy
      exact hxy
  | array xs =>
      obtain ⟨ys, rfl, -⟩ := array_strictEq_iff.mp h
      exact h
  | object xs =>
      obtain ⟨ys, rfl, -⟩ := object_strictEq_iff.mp h
      exact h

/-! ### The laws together -/

/-- The relations between values are lawful, on arrays and objects as on the rest. Equality after coercion
is symmetric and its rules decide it on every pair; equality of content is an equivalence and lies within
it, unless the left value is the number that is none; and a comparison is the reverse of the one in the
other order, so that the operators come in mirrored pairs. -/
theorem lawful_relations :
    ((∀ a b : Value, a.looseEq b = b.looseEq a) ∧
      ∀ a b r, Equates a b r ↔ a.looseEq b = r) ∧
    ((∀ a : Value, a.strictEq a) ∧
      (∀ a b : Value, a.strictEq b → b.strictEq a) ∧
      ∀ a b c : Value, a.strictEq b → b.strictEq c → a.strictEq c) ∧
    (∀ a b : Value, a.strictEq b → a.looseEq b ∨ ∃ x, a = number x ∧ x.isNaN) ∧
    (∀ a b : Value, b.compare? a = (a.compare? b).map Ordering.swap) ∧
    ∀ a b : Value, BinaryOp.greater.apply b a = BinaryOp.less.apply a b ∧
      BinaryOp.greaterEq.apply b a = BinaryOp.lessEq.apply a b := by
  refine ⟨⟨looseEq_comm, fun a b r => equates_iff⟩,
    ⟨strictEq_self, fun a b => strictEq_symm, fun a b c => strictEq_trans⟩, ?_, compare?_swap,
    fun a b => ⟨less_apply_swap a b, lessEq_apply_swap a b⟩⟩
  intro a b h
  by_cases hnan : ∃ x, a = number x ∧ x.isNaN
  · exact .inr hnan
  · refine .inl (looseEq_of_strictEq h fun x hx => ?_)
    exact Bool.eq_false_iff.mpr fun hx' => hnan ⟨x, hx, hx'⟩

end RuleLang.Value

namespace RuleLang.Sample

open Value in
/-- What is not a number has its own content, also inside an array, where it makes the array equal to
itself after coercion; on its own it is equal to nothing after coercion. -/
theorem lawful_relations_nan :
    (number Number.nan).strictEq (number Number.nan) ∧
      ((array [number Number.nan]).looseEq (array [number Number.nan]) ∨
        ∃ x, array [number Number.nan] = number x ∧ x.isNaN) :=
  ⟨lawful_relations.2.1.1 _, lawful_relations.2.2.1 _ _ (lawful_relations.2.1.1 _)⟩

end RuleLang.Sample
