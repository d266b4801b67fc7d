import Jstn.Schema
import Mathlib.Data.List.Induction

/-!
# Facts about schema trees

`Schema.levels` counts how deep the containers of a tree nest.  Only the parts
that matter are followed: the properties of an object node and the item type of
an array node.  `Schema.strip` removes all other parts, and a tree without any is
left as it is (`strip_of_trim`).

`Schema.Ordered` says that the properties of every node are a map, with their names
in ascending order.  Every constructor and every edit keeps it (`Ordered.object`,
`Ordered.insert`).

An object is made of a list of pairs.  What it has under a name is what the last pair of that
name has (`property?_object`).
-/

namespace Jstn

namespace NameMap

variable {α : Type}

instance (m : NameMap α) : Decidable (Ascending m) :=
  inferInstanceAs (Decidable (m.Pairwise fun p q => p.1 < q.1))

theorem mem_of_find? {name : String} {m : NameMap α} {v : α} (h : find? name m = some v) :
    (name, v) ∈ m := by
  induction m with
  | nil => cases h
  | cons q m ih =>
      rw [find?] at h
      split at h
      next hq =>
        cases h
        rw [← hq]
        exact List.mem_cons_self
      next => exact List.mem_cons_of_mem _ (ih h)

theorem find?_of_mem {name : String} {m : NameMap α} {v : α} (ho : Ascending m)
    (h : (name, v) ∈ m) : find? name m = some v := by
  induction m with
  | nil => cases h
  | cons q m ih =>
      obtain ⟨hlt, ho⟩ := List.pairwise_cons.mp ho
      rw [find?]
      rcases List.mem_cons.mp h with rfl | h
      · exact if_pos rfl
      · have hne : q.1 ≠ name := by
          rintro rfl
          exact String.lt_irrefl q.1 (hlt (q.1, v) h)
        rw [if_neg hne]
        exact ih ho h

/-- A name after all others is put in at the end. -/
theorem insert_append {name : String} (v : α) {m : NameMap α} (h : ∀ q ∈ m, q.1 < name) :
    insert name v m = m ++ [(name, v)] := by
  induction m with
  | nil => rfl
  | cons q m ih =>
      obtain ⟨hq, hm⟩ := List.forall_mem_cons.mp h
      have hlt : ¬name < q.1 := by
        intro h
        exact String.lt_irrefl name (String.lt_trans h hq)
      have hne : name ≠ q.1 := by
        rintro rfl
        exact String.lt_irrefl q.1 hq
      rw [insert, if_neg hlt, if_neg hne, ih hm]
      rfl

theorem ofPairs_append (ps : List (String × α)) (name : String) (v : α) :
    ofPairs (ps ++ [(name, v)]) = insert name v (ofPairs ps) := by
  rw [ofPairs, List.foldl_append]
  rfl

theorem mem_of_mem_ofPairs {ps : List (String × α)} {p : String × α} (h : p ∈ ofPairs ps) :
    p ∈ ps := by
  induction ps using List.reverseRecOn with
  | nil => cases h
  | append_singleton ps q ih =>
      rw [ofPairs_append] at h
      rcases mem_insert h with rfl | h
      · exact List.mem_append_right _ List.mem_cons_self
      · exact List.mem_append_left _ (ih h)

/-- The value under a name is the last one that was put there. -/
theorem find?_ofPairs (ps : List (String × α)) (name : String) :
    find? name (ofPairs ps) = (ps.reverse.find? fun p => p.1 = name).map Prod.snd := by
  induction ps using List.reverseRecOn with
  | nil => rfl
  | append_singleton ps p ih =>
      rw [ofPairs_append, find?_insert, ih, List.reverse_append, List.reverse_singleton,
        List.singleton_append, List.find?_cons]
      by_cases h : p.1 = name <;> simp [h]

/-- Maps are equal if they have the same values under all names. -/
theorem eq_of_find?_eq {m m' : NameMap α} (hm : Ascending m) (hm' : Ascending m')
    (h : ∀ name, find? name m = find? name m') : m = m' := by
  have hnodup : ∀ {m : NameMap α}, Ascending m → m.Nodup := by
    intro m hm
    refine hm.imp fun {p q} hlt heq => ?_
    rw [heq] at hlt
    exact String.lt_irrefl q.1 hlt
  have hperm : m.Perm m' := by
    refine (List.perm_ext_iff_of_nodup (hnodup hm) (hnodup hm')).mpr fun p => ⟨fun hp => ?_, ?_⟩
    · exact mem_of_find? ((h p.1).symm.trans (find?_of_mem hm hp))
    · exact fun hp => mem_of_find? ((h p.1).trans (find?_of_mem hm' hp))
  exact hperm.eq_of_pairwise (fun p q _ _ hpq hqp => absurd hqp (String.lt_asymm hpq)) hm hm'

end NameMap

namespace Schema

/-! ## Depth -/

mutual

/-- How many containers are around the innermost part of a tree. -/
def levels : Schema → Nat
  | ⟨.array, _, _, items⟩ => levelsOfItems items + 1
  | ⟨.object, _, properties, _⟩ => levelsOfProperties properties + 1
  | _ => 0

/-- How many containers are around the innermost part of an item type. -/
def levelsOfItems : Option Schema → Nat
  | none => 0
  | some t => levels t

/-- How many containers are around the innermost part of properties. -/
def levelsOfProperties : List (String × Schema) → Nat
  | [] => 0
  | (_, t) :: ps => max (levels t) (levelsOfProperties ps)

end

theorem levels_le_of_mem {ps : List (String × Schema)} {p : String × Schema} (h : p ∈ ps) :
    p.2.levels ≤ levelsOfProperties ps := by
  induction ps with
  | nil => cases h
  | cons q ps ih =>
      rw [levelsOfProperties]
      rcases List.mem_cons.mp h with rfl | h
      · exact Nat.le_max_left ..
      · exact Nat.le_trans (ih h) (Nat.le_max_right ..)

theorem levels_pos {t : Schema} (h : t.kind = .array ∨ t.kind = .object) : 0 < t.levels := by
  obtain ⟨kind, optional, properties, items⟩ := t
  rcases h with h | h <;> (cases h; rw [levels]; exact Nat.succ_pos _)

theorem levels_items {t node : Schema} (h : t.kind = .array) (hi : t.items = some node) :
    node.levels < t.levels := by
  obtain ⟨kind, optional, properties, items⟩ := t
  cases h
  cases hi
  rw [levels, levelsOfItems]
  exact Nat.lt_succ_self _

theorem levels_property {t : Schema} {p : String × Schema} (h : t.kind = .object)
    (hp : p ∈ t.properties) : p.2.levels < t.levels := by
  obtain ⟨kind, optional, properties, items⟩ := t
  cases h
  rw [levels]
  exact Nat.lt_succ_of_le (levels_le_of_mem hp)

example : (array (object [("a", array string), ("b", number)])).levels = 3 := by decide
example : ({ kind := .string, items := some emptyArray } : Schema).levels = 0 := by decide

/-! ## Parts that matter -/

mutual

/-- The tree without the parts that the kinds of its nodes do not use. -/
def strip : Schema → Schema
  | ⟨kind, optional, properties, items⟩ =>
      { kind, optional
        properties := if kind = .object then stripProperties properties else []
        items := if kind = .array then stripItems items else none }

/-- An item type without the parts that are not used. -/
def stripItems : Option Schema → Option Schema
  | none => none
  | some t => some (strip t)

/-- Properties without the parts that are not used. -/
def stripProperties : List (String × Schema) → List (String × Schema)
  | [] => []
  | (name, t) :: ps => (name, strip t) :: stripProperties ps

end

theorem stripProperties_eq_map (ps : List (String × Schema)) :
    stripProperties ps = ps.map fun p => (p.1, p.2.strip) := by
  induction ps with
  | nil => rfl
  | cons p ps ih => rw [stripProperties, List.map_cons, ih]

theorem ascending_stripProperties {ps : List (String × Schema)} (h : NameMap.Ascending ps) :
    NameMap.Ascending (stripProperties ps) := by
  rw [stripProperties_eq_map]
  exact List.pairwise_map.mpr h

/-- A tree all of whose parts are used. -/
inductive Trim : Schema → Prop
  | node {kind : Kind} {optional : Bool} {properties : List (String × Schema)}
      {items : Option Schema} :
      (kind ≠ .object → properties = []) → (kind ≠ .array → items = none) →
      (∀ p ∈ properties, Trim p.2) → (∀ t, items = some t → Trim t) →
      Trim ⟨kind, optional, properties, items⟩

theorem stripProperties_of_trim {ps : List (String × Schema)}
    (h : ∀ p ∈ ps, strip p.2 = p.2) : stripProperties ps = ps := by
  induction ps with
  | nil => rfl
  | cons p ps ih =>
      obtain ⟨hp, hps⟩ := List.forall_mem_cons.mp h
      rw [stripProperties, ih hps, hp]

/-- Nothing is removed from a tree all of whose parts are used. -/
theorem strip_of_trim {t : Schema} (h : Trim t) : t.strip = t := by
  induction h with
  | @node kind optional properties items hobject harray _ _ ihproperties ihitems =>
      have hproperties :
          (if kind = .object then stripProperties properties else []) = properties := by
        by_cases hk : kind = .object
        · rw [if_pos hk, stripProperties_of_trim ihproperties]
        · rw [if_neg hk, hobject hk]
      have hitems : (if kind = .array then stripItems items else none) = items := by
        by_cases hk : kind = .array
        · rw [if_pos hk]
          cases items with
          | none => rfl
          | some t => rw [stripItems, ihitems t rfl]
        · rw [if_neg hk, harray hk]
      rw [strip, hproperties, hitems]

/-! ## Order -/

/-- The properties of every node are a map. -/
inductive Ordered : Schema → Prop
  | node {kind : Kind} {optional : Bool} {properties : List (String × Schema)}
      {items : Option Schema} :
      NameMap.Ascending properties → (∀ p ∈ properties, Ordered p.2) →
      (∀ t, items = some t → Ordered t) → Ordered ⟨kind, optional, properties, items⟩

namespace Ordered

variable {t child : Schema}

theorem ascending (h : Ordered t) : NameMap.Ascending t.properties := by
  cases h with
  | node horder _ _ => exact horder

theorem property (h : Ordered t) {p : String × Schema} (hp : p ∈ t.properties) : Ordered p.2 := by
  cases h with
  | node _ hproperties _ => exact hproperties p hp

theorem item (h : Ordered t) (hi : t.items = some child) : Ordered child := by
  cases h with
  | node _ _ hitems => exact hitems child hi

/-- A node is ordered if its properties are a map of ordered trees and its item type is
ordered, whatever its kind. -/
theorem of_parts (horder : NameMap.Ascending t.properties)
    (hproperties : ∀ p ∈ t.properties, Ordered p.2)
    (hitems : ∀ child, t.items = some child → Ordered child) : Ordered t := by
  obtain ⟨kind, optional, properties, items⟩ := t
  exact node horder hproperties hitems

theorem ofKind (kind : Kind) : Ordered (ofKind kind) :=
  of_parts NameMap.ascending_nil nofun nofun

theorem array (h : Ordered t) : Ordered (array t) := by
  refine of_parts NameMap.ascending_nil nofun fun child hchild => ?_
  cases hchild
  exact h

theorem object {ps : List (String × Schema)} (h : ∀ p ∈ ps, Ordered p.2) : Ordered (object ps) :=
  of_parts (NameMap.ascending_ofPairs ps) (fun p hp => h p (NameMap.mem_of_mem_ofPairs hp)) nofun

theorem withKind (h : Ordered t) (kind : Kind) : Ordered (t.withKind kind) :=
  of_parts h.ascending (fun _ => h.property) (fun _ => h.item)

theorem withOptional (h : Ordered t) (optional : Bool) : Ordered (t.withOptional optional) :=
  of_parts h.ascending (fun _ => h.property) (fun _ => h.item)

theorem insert (h : Ordered t) (name : String) (hchild : Ordered child) :
    Ordered (t.insert name child) := by
  refine of_parts (NameMap.ascending_insert name child h.ascending) ?_ (fun _ => h.item)
  intro p hp
  rcases NameMap.mem_insert hp with rfl | hp
  · exact hchild
  · exact h.property hp

theorem erase (h : Ordered t) (name : String) : Ordered (t.erase name) :=
  of_parts (NameMap.ascending_erase name h.ascending)
    (fun _ hp => h.property (NameMap.mem_of_mem_erase hp)) (fun _ => h.item)

theorem withItems (h : Ordered t) {items : Option Schema}
    (hitems : ∀ child, items = some child → Ordered child) : Ordered (t.withItems items) :=
  of_parts h.ascending (fun _ => h.property) hitems

end Ordered

/-! ## Objects of pairs -/

/-- The type that a list of pairs binds last to a name. -/
def lastOf? (ps : List (String × Schema)) (name : String) : Option Schema :=
  (ps.reverse.find? fun p => p.1 = name).map Prod.snd

theorem property?_object (ps : List (String × Schema)) (name : String) :
    (object ps).property? name = lastOf? ps name := NameMap.find?_ofPairs ps name

end Schema

end Jstn
