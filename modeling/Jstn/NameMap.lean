/-!
# Values under names

The properties of an object have no order of their own.  They are kept as a
list of pairs, one per name, with the names in strictly ascending order.  So
two maps with the same entries are the same list, and whatever walks the list
meets the names in one fixed order.

Names are compared by code point, which is also the order of their UTF-8 bytes.
It is not the order of their UTF-16 units.

Every operation keeps the order (`ascending_insert`, `ascending_erase`,
`ascending_ofPairs`), and a look-up sees what was put in last (`find?_insert`).
-/

namespace Jstn

/-- A list of named values. -/
abbrev NameMap (α : Type) := List (String × α)

namespace NameMap

variable {α : Type}

/-- The value under a name. -/
def find? (name : String) : NameMap α → Option α
  | [] => none
  | (n, v) :: m => if n = name then some v else find? name m

/-- The names, in the order of the list. -/
def names (m : NameMap α) : List String := m.map Prod.fst

/-- The map with `value` under `name`, in place of what was there. -/
def insert (name : String) (value : α) : NameMap α → NameMap α
  | [] => [(name, value)]
  | (n, v) :: m =>
      if name < n then (name, value) :: (n, v) :: m
      else if name = n then (name, value) :: m
      else (n, v) :: insert name value m

/-- The map without what is under `name`. -/
def erase (name : String) : NameMap α → NameMap α
  | [] => []
  | (n, v) :: m => if n = name then erase name m else (n, v) :: erase name m

/-- The map of a list of pairs.  A later pair replaces an earlier one of the
same name. -/
def ofPairs (pairs : List (String × α)) : NameMap α :=
  pairs.foldl (fun m p => insert p.1 p.2 m) []

/-- The names stand in strictly ascending order. -/
def Ascending (m : NameMap α) : Prop := m.Pairwise fun p q => p.1 < q.1

/-! ## The order is kept -/

theorem ascending_nil : Ascending ([] : NameMap α) := List.Pairwise.nil

theorem mem_insert {name : String} {value : α} {m : NameMap α} {p : String × α}
    (h : p ∈ insert name value m) : p = (name, value) ∨ p ∈ m := by
  induction m with
  | nil => exact Or.inl (by simpa [insert] using h)
  | cons q m ih =>
      rw [insert] at h
      split at h
      · simpa using h
      · split at h
        · rcases List.mem_cons.mp h with h | h
          · exact Or.inl h
          · exact Or.inr (List.mem_cons_of_mem _ h)
        · rcases List.mem_cons.mp h with h | h
          · exact Or.inr (h ▸ List.mem_cons_self)
          · exact (ih h).imp id (List.mem_cons_of_mem _)

theorem mem_of_mem_erase {name : String} {m : NameMap α} {p : String × α}
    (h : p ∈ erase name m) : p ∈ m := by
  induction m with
  | nil => simp [erase] at h
  | cons q m ih =>
      rw [erase] at h
      split at h
      · exact List.mem_cons_of_mem _ (ih h)
      · rcases List.mem_cons.mp h with h | h
        · exact h ▸ List.mem_cons_self
        · exact List.mem_cons_of_mem _ (ih h)

theorem ascending_insert (name : String) (value : α) {m : NameMap α} (h : Ascending m) :
    Ascending (insert name value m) := by
  induction m with
  | nil => exact List.pairwise_singleton ..
  | cons q m ih =>
      have hm := List.pairwise_cons.mp h
      rw [insert]
      split
      next hlt =>
        refine List.pairwise_cons.mpr ⟨fun p hp => ?_, h⟩
        rcases List.mem_cons.mp hp with hp | hp
        · exact hp ▸ hlt
        · exact String.lt_trans hlt (hm.1 p hp)
      next hlt =>
        split
        next heq => exact List.pairwise_cons.mpr ⟨heq ▸ hm.1, hm.2⟩
        next hne =>
          have hgt : q.1 < name := by
            rcases Decidable.em (q.1 < name) with h | h
            · exact h
            · exact absurd (String.le_antisymm (String.not_lt.mp h) (String.not_lt.mp hlt)) hne
          refine List.pairwise_cons.mpr ⟨fun p hp => ?_, ih hm.2⟩
          rcases mem_insert hp with hp | hp
          · exact hp ▸ hgt
          · exact hm.1 p hp

theorem ascending_erase (name : String) {m : NameMap α} (h : Ascending m) :
    Ascending (erase name m) := by
  induction m with
  | nil => exact List.Pairwise.nil
  | cons q m ih =>
      have hm := List.pairwise_cons.mp h
      rw [erase]
      split
      · exact ih hm.2
      · exact List.pairwise_cons.mpr ⟨fun p hp => hm.1 p (mem_of_mem_erase hp), ih hm.2⟩

theorem ascending_foldl_insert (pairs : List (String × α)) {m : NameMap α} (h : Ascending m) :
    Ascending (pairs.foldl (fun m p => insert p.1 p.2 m) m) := by
  induction pairs generalizing m with
  | nil => exact h
  | cons p pairs ih => exact ih (ascending_insert p.1 p.2 h)

theorem ascending_ofPairs (pairs : List (String × α)) : Ascending (ofPairs pairs) :=
  ascending_foldl_insert pairs ascending_nil

/-! ## What a look-up sees -/

theorem find?_insert (name : String) (value : α) (m : NameMap α) (other : String) :
    find? other (insert name value m) = if name = other then some value else find? other m := by
  induction m with
  | nil => rfl
  | cons q m ih =>
      rw [insert]
      split
      next => rfl
      next =>
        split
        next heq =>
          rw [find?, find?, heq]
          split <;> rfl
        next hne =>
          rw [find?, find?, ih]
          split
          next hq => rw [if_neg (fun hn => hne (hn.trans hq.symm))]
          next => rfl

theorem find?_erase (name : String) (m : NameMap α) (other : String) :
    find? other (erase name m) = if name = other then none else find? other m := by
  induction m with
  | nil => simp [erase, find?]
  | cons q m ih =>
      rw [erase]
      split
      next heq =>
        rw [ih, find?, heq]
        split <;> rfl
      next hne =>
        rw [find?, find?, ih]
        split
        next hq => rw [if_neg (fun hn => hne (hq.trans hn.symm))]
        next => rfl

example : names (ofPairs [("b", 1), ("a", 2), ("b", 3)]) = ["a", "b"] := by decide
example : find? "b" (ofPairs [("b", 1), ("a", 2), ("b", 3)]) = some 3 := by decide

end NameMap

end Jstn
