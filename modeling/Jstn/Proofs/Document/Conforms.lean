import Jstn.Document.Check
import Jstn.Proofs.Json.Grammar
import Jstn.Proofs.Schema

/-!
# Values that conform to a schema

`Conforms mode t v` says which values a node admits, without reading any text.
The members of an object are a list, so a declared property may occur more than
once, and every occurrence has to conform.

The kinds of the node and of the value decide which rule applies
(`conforms_unvisited_iff`, `conforms_array_iff`, `conforms_object_iff`).
-/

namespace Jstn

open Json (Value)

/-- A value that a node admits. -/
inductive Conforms (mode : Mode) : Schema → Value → Prop
  /-- Lenient mode takes every value where any may stand. -/
  | any {t : Schema} {v : Value} : t.kind = .any → mode = .lenient → Conforms mode t v
  /-- A scalar of the kind of the node. -/
  | scalar {t : Schema} {v : Value} : t.kind.isScalar = true → v.kind = t.kind → Conforms mode t v
  /-- A null in place of an optional scalar. -/
  | absent {t : Schema} : t.kind.isScalar = true → t.optional = true → Conforms mode t .null
  | null {t : Schema} : t.kind = .null → Conforms mode t .null
  /-- An array without an item type is empty. -/
  | emptyArray {t : Schema} : t.kind = .array → t.items = none → Conforms mode t (.array [])
  | array {t node : Schema} {items : List Value} :
      t.kind = .array → t.items = some node → (∀ v ∈ items, Conforms mode node v) →
      Conforms mode t (.array items)
  /-- Every key is a text.  Declared properties conform, undeclared ones need
  lenient mode, and none that is required is missing. -/
  | object {t : Schema} {members : List (Option String × Value)} :
      t.kind = .object →
      (∀ e ∈ members, e.1.isSome = true) →
      (∀ e ∈ members, ∀ name node, e.1 = some name → t.property? name = some node →
        Conforms mode node e.2) →
      (∀ e ∈ members, ∀ name, e.1 = some name → t.property? name = none → mode = .lenient) →
      (∀ p ∈ t.properties, p.2.optional = false → ∃ e ∈ members, e.1 = some p.1) →
      Conforms mode t (.object members)

/-- The node that the value of a property belongs to, if the property may occur. -/
def declared? (mode : Mode) (properties : List (String × Schema)) (name : String) :
    Option Schema :=
  match NameMap.find? name properties, mode with
  | some node, _ => some node
  | none, .lenient => some .any
  | none, .strict => none

/-- A member that an object with the given properties may have. -/
def MemberConforms (mode : Mode) (properties : List (String × Schema))
    (e : Option String × Value) : Prop :=
  ∃ name node, e.1 = some name ∧ declared? mode properties name = some node ∧
    Conforms mode node e.2

variable {mode : Mode} {t : Schema}

/-- At a node that describes no container the kind of the value decides. -/
theorem conforms_unvisited_iff {v : Value} (ha : t.kind ≠ .array) (ho : t.kind ≠ .object)
    (hk : t.kind ≠ .any) :
    Conforms mode t v ↔ t.kind.violation? t.optional v.kind = none := by
  constructor
  · intro h
    cases h with
    | any h => exact absurd h hk
    | scalar h hv => rw [Kind.violation?, if_pos hv.symm]
    | absent h hopt =>
        rw [Kind.violation?, hopt]
        split
        · rfl
        · rw [if_pos ⟨rfl, h⟩, if_pos rfl]
    | null h => rw [Kind.violation?, if_pos (show t.kind = Value.null.kind from h)]
    | emptyArray h => exact absurd h ha
    | array h => exact absurd h ha
    | object h => exact absurd h ho
  · intro h
    rw [Kind.violation?] at h
    split at h
    next heq =>
      cases hkind : t.kind with
      | string => exact .scalar (by rw [hkind]; rfl) heq.symm
      | number => exact .scalar (by rw [hkind]; rfl) heq.symm
      | boolean => exact .scalar (by rw [hkind]; rfl) heq.symm
      | null =>
          rw [hkind] at heq
          cases v with
          | null => exact .null hkind
          | boolean _ | number _ | string _ | array _ | object _ => cases heq
      | object => exact absurd hkind ho
      | array => exact absurd hkind ha
      | any => exact absurd hkind hk
    next =>
      split at h
      next hn =>
        split at h
        next hopt =>
          cases v with
          | null => exact .absent hn.2 hopt
          | boolean _ | number _ | string _ | array _ | object _ => cases hn.1
        next => cases h
      next => cases h

/-- A node that describes a container admits that container only. -/
theorem kind_of_conforms {v : Value} (ht : t.kind = .array ∨ t.kind = .object)
    (h : Conforms mode t v) : v.kind = t.kind := by
  have hs : t.kind.isScalar = false := by
    rcases ht with ht | ht <;> rw [ht] <;> rfl
  cases h with
  | any h => rcases ht with ht | ht <;> rw [ht] at h <;> cases h
  | scalar h => rw [hs] at h; cases h
  | absent h => rw [hs] at h; cases h
  | null h => rcases ht with ht | ht <;> rw [ht] at h <;> cases h
  | emptyArray h => exact h.symm
  | array h => exact h.symm
  | object h => exact h.symm

theorem conforms_any_iff {v : Value} (h : t.kind = .any) :
    Conforms mode t v ↔ mode = .lenient := by
  constructor
  · intro hv
    cases hv with
    | any _ hm => exact hm
    | scalar hs | absent hs => rw [h] at hs; cases hs
    | null hk | emptyArray hk | array hk | object hk => rw [h] at hk; cases hk
  · exact .any h

theorem conforms_array_iff {items : List Value} (h : t.kind = .array) :
    Conforms mode t (.array items) ↔
      ∀ v ∈ items, ∃ node, t.items = some node ∧ Conforms mode node v := by
  constructor
  · intro hv v hmem
    cases hv with
    | any hk => rw [h] at hk; cases hk
    | scalar hs => rw [h] at hs; cases hs
    | emptyArray => cases hmem
    | @array _ node _ _ hi hc => exact ⟨node, hi, hc v hmem⟩
  · intro hc
    cases hi : t.items with
    | some node =>
        refine .array h hi fun v hmem => ?_
        obtain ⟨node', hn, hv⟩ := hc v hmem
        rw [hi] at hn
        cases hn
        exact hv
    | none =>
        cases items with
        | nil => exact .emptyArray h hi
        | cons v items =>
            obtain ⟨node, hn, -⟩ := hc v List.mem_cons_self
            rw [hi] at hn
            cases hn

theorem conforms_object_iff {members : List (Option String × Value)} (h : t.kind = .object) :
    Conforms mode t (.object members) ↔
      (∀ e ∈ members, MemberConforms mode t.properties e) ∧
      ∀ p ∈ t.properties, p.2.optional = false → ∃ e ∈ members, e.1 = some p.1 := by
  constructor
  · intro hv
    cases hv with
    | any hk => rw [h] at hk; cases hk
    | scalar hs => rw [h] at hs; cases hs
    | object _ hkey hdeclared hundeclared hrequired =>
        refine ⟨fun e he => ?_, hrequired⟩
        obtain ⟨name, hname⟩ := Option.isSome_iff_exists.mp (hkey e he)
        cases hf : NameMap.find? name t.properties with
        | some node =>
            exact ⟨name, node, hname, by simp only [declared?, hf],
              hdeclared e he name node hname hf⟩
        | none =>
            obtain rfl := hundeclared e he name hname hf
            exact ⟨name, .any, hname, by simp only [declared?, hf], .any rfl rfl⟩
  · rintro ⟨hmembers, hrequired⟩
    refine .object h (fun e he => ?_) (fun e he name node hname hf => ?_)
      (fun e he name hname hf => ?_) hrequired
    · obtain ⟨name, node, hname, -⟩ := hmembers e he
      rw [hname]
      rfl
    · obtain ⟨name', node', hname', hd, hv⟩ := hmembers e he
      rw [hname] at hname'
      cases hname'
      simp only [declared?, show NameMap.find? name t.properties = _ from hf] at hd
      cases hd
      exact hv
    · obtain ⟨name', node', hname', hd, -⟩ := hmembers e he
      rw [hname] at hname'
      cases hname'
      simp only [declared?, show NameMap.find? name t.properties = _ from hf] at hd
      cases mode with
      | lenient => rfl
      | strict => cases hd

end Jstn
