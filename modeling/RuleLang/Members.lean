/-!
# Members in key order

A keyed collection is a list of pairs in ascending order of the keys, each key once. Keys are compared
code point by code point, which is also the order of their UTF-8 bytes.

* `Members.insert`: adds a member or replaces the one with the same key.
* `Members.find?`: the member with a key.
* `Members.ofList`: the collection of a list of pairs, of which the last with a key counts.
-/

namespace RuleLang.Members

variable {α : Type}

/-- Adds a member in its place; a member with the same key is replaced. -/
def insert (key : String) (value : α) : List (String × α) → List (String × α)
  | [] => [(key, value)]
  | (k, v) :: rest =>
    if key < k then (key, value) :: (k, v) :: rest
    else if key = k then (key, value) :: rest
    else (k, v) :: insert key value rest

/-- The member with a key. -/
def find? (key : String) : List (String × α) → Option α
  | [] => none
  | (k, v) :: rest => if k = key then some v else find? key rest

/-- The members of a list of pairs; a later pair replaces an earlier one with the same key. -/
def ofList (pairs : List (String × α)) : List (String × α) :=
  pairs.foldl (fun members pair => insert pair.1 pair.2 members) []

/-- A member that was added is found under its key. -/
theorem find?_insert_self (key : String) (value : α) (members : List (String × α)) :
    find? key (insert key value members) = some value := by
  induction members with
  | nil => simp [insert, find?]
  | cons head rest ih =>
    obtain ⟨k, v⟩ := head
    by_cases hlt : key < k
    · simp [insert, hlt, find?]
    · by_cases heq : key = k
      · simp [insert, heq, find?]
      · have hne : ¬ k = key := fun h => heq h.symm
        simp [insert, hlt, heq, find?, hne, ih]

/-- Adding a member changes nothing under other keys. -/
theorem find?_insert_of_ne {key other : String} (value : α) (members : List (String × α))
    (h : other ≠ key) : find? other (insert key value members) = find? other members := by
  induction members with
  | nil => simp [insert, find?, h.symm]
  | cons head rest ih =>
    obtain ⟨k, v⟩ := head
    by_cases hlt : key < k
    · simp [insert, hlt, find?, h.symm]
    · by_cases heq : key = k
      · subst heq
        simp [insert, find?, h.symm]
      · simp [insert, hlt, heq, find?, ih]

/-- What is found under a key is a member with that key. -/
theorem mem_of_find? {key : String} {value : α} {members : List (String × α)}
    (h : find? key members = some value) : (key, value) ∈ members := by
  induction members with
  | nil => cases h
  | cons head rest ih =>
    rw [find?] at h
    split at h
    · rename_i heq
      exact List.mem_cons.mpr (.inl (Prod.ext heq.symm (Option.some.inj h).symm))
    · exact List.mem_cons_of_mem _ (ih h)

/-- After a member was added, every member is that one or was there before. -/
theorem mem_insert {key : String} {value : α} {members : List (String × α)} {pair : String × α}
    (h : pair ∈ insert key value members) : pair = (key, value) ∨ pair ∈ members := by
  fun_induction insert key value members with
  | case1 => exact .inl (List.mem_singleton.mp h)
  | case2 k v rest hlt => exact List.mem_cons.mp h
  | case3 v rest hlt => grind
  | case4 k v rest hlt hne ih => grind

end RuleLang.Members
