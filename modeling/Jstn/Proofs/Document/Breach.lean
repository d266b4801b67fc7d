import Jstn.Proofs.Document.Conforms
import Jstn.Proofs.Json.Number
import Jstn.Proofs.Text.ByteOrder

/-!
# How a value fails to conform

`FirstBreach mode t v location violation` says, without reading any text, where a value
first breaks the rule of a node and how.  The location leads from the root to the value and
its node.  Everything that stands before it, at every level, conforms.  The value itself
breaks the rule of its node (`Breaks`): it has the wrong kind, its node takes no value, it
has an item or a member that may not be there, or it lacks a property although all its
members conform.  A value has one first breach at most (`firstBreach_unique`).

A reader that visits values may give up on a value for other reasons, which are no breaches.
A number may be too large for it and a literal may stand for no text (`Undecodable`), and
containers may nest too deep (`Enters`).
-/

namespace Jstn

open Json (Value)

/-! ## Breaches -/

/-- How a value breaks the rule of its own node. -/
inductive Breaks (mode : Mode) : Schema → Value → Violation → Prop
  /-- Strict mode takes no value where any may stand. -/
  | any {t : Schema} {v : Value} : t.kind = .any → mode = .strict → Breaks mode t v .anyInStrict
  /-- Another kind than that of the node, but no null in place of a scalar. -/
  | wrongKind {t : Schema} {v : Value} :
      t.kind ≠ .any → v.kind ≠ t.kind → ¬(t.kind.isScalar = true ∧ v.kind = .null) →
      Breaks mode t v (.wrongKind t.kind v.kind)
  | requiredNull {t : Schema} :
      t.kind.isScalar = true → t.optional = false → Breaks mode t .null (.requiredNull t.kind)
  /-- An item where none may stand. -/
  | untypedItem {t : Schema} {v : Value} {more : List Value} :
      t.kind = .array → t.items = none → Breaks mode t (.array (v :: more)) .untypedItem
  /-- The first member that strict mode does not know. -/
  | undeclared {t : Schema} {first more : List (Option String × Value)} {name : String}
      {v : Value} :
      t.kind = .object → mode = .strict → (∀ e ∈ first, MemberConforms mode t.properties e) →
      t.property? name = none →
      Breaks mode t (.object (first ++ (some name, v) :: more)) (.undeclared name)
  /-- The first required name that no member has, in the order of their bytes. -/
  | missing {t : Schema} {members : List (Option String × Value)} {p : String × Schema} :
      t.kind = .object → (∀ e ∈ members, MemberConforms mode t.properties e) →
      p ∈ t.properties → p.2.optional = false → (∀ e ∈ members, e.1 ≠ some p.1) →
      (∀ q ∈ t.properties, q.2.optional = false → (∀ e ∈ members, e.1 ≠ some q.1) →
        Utf8.encode p.1 ≤ Utf8.encode q.1) →
      Breaks mode t (.object members) (.missing p.1)

/-- Where a value first breaks a rule, and how. -/
inductive FirstBreach (mode : Mode) : Schema → Value → Location → Violation → Prop
  | here {t : Schema} {v : Value} {violation : Violation} :
      Breaks mode t v violation → FirstBreach mode t v [] violation
  /-- The items before it conform. -/
  | item {t node : Schema} {first more : List Value} {v : Value} {location : Location}
      {violation : Violation} :
      t.kind = .array → t.items = some node → (∀ u ∈ first, Conforms mode node u) →
      FirstBreach mode node v location violation →
      FirstBreach mode t (.array (first ++ v :: more)) (.index first.length :: location) violation
  /-- The members before it conform. -/
  | member {t node : Schema} {first more : List (Option String × Value)} {name : String}
      {v : Value} {location : Location} {violation : Violation} :
      t.kind = .object → (∀ e ∈ first, MemberConforms mode t.properties e) →
      t.property? name = some node → FirstBreach mode node v location violation →
      FirstBreach mode t (.object (first ++ (some name, v) :: more)) (.key name :: location)
        violation

/-! ## What is given up on -/

/-- The number is too large to be read for its value. -/
def Json.Number.OutOfRange (written : List UInt8) : Prop :=
  ∃ b more s p, written = b :: more ∧ ofFirst? b = some s ∧
    drive step finish s .start more = .error (.numberOutOfRange, p)

/-- Some number is too large, or some string or key stands for no text. -/
inductive Json.Value.Undecodable : Value → Prop
  | number {written : List UInt8} : Number.OutOfRange written → Undecodable (.number written)
  | string : Undecodable (.string none)
  | item {items : List Value} {v : Value} : v ∈ items → Undecodable v → Undecodable (.array items)
  | key {members : List (Option String × Value)} {v : Value} :
      (none, v) ∈ members → Undecodable (.object members)
  | member {members : List (Option String × Value)} {key : Option String} {v : Value} :
      (key, v) ∈ members → Undecodable v → Undecodable (.object members)

/-- Visiting a value at a node enters `n` containers, one inside the other. -/
inductive Enters : Schema → Value → Nat → Prop
  | root {t : Schema} {v : Value} :
      t.kind = .array ∨ t.kind = .object → v.kind = .array ∨ v.kind = .object → Enters t v 1
  | item {t node : Schema} {items : List Value} {v : Value} {n : Nat} :
      t.kind = .array → t.items = some node → v ∈ items → Enters node v n →
      Enters t (.array items) (n + 1)
  | member {t node : Schema} {members : List (Option String × Value)} {name : String}
      {v : Value} {n : Nat} :
      t.kind = .object → t.property? name = some node → (some name, v) ∈ members →
      Enters node v n → Enters t (.object members) (n + 1)

variable {mode : Mode} {t : Schema}

theorem declared?_of_some (mode : Mode) {name : String} {node : Schema}
    (h : t.property? name = some node) : declared? mode t.properties name = some node := by
  simp only [declared?, show NameMap.find? name t.properties = some node from h]

theorem declared?_strict {name : String} (h : t.property? name = none) :
    declared? .strict t.properties name = none := by
  simp only [declared?, show NameMap.find? name t.properties = none from h]

theorem not_memberConforms_of_undeclared {name : String} (hm : mode = .strict)
    (h : t.property? name = none) (v : Value) :
    ¬MemberConforms mode t.properties (some name, v) := by
  rintro ⟨name', node, heq, hdeclared, -⟩
  cases heq
  rw [hm, declared?_strict h] at hdeclared
  cases hdeclared

theorem undecodable_array_iff {items : List Value} :
    (Value.array items).Undecodable ↔ ∃ v ∈ items, v.Undecodable := by
  constructor
  · intro h
    cases h with
    | item hv h => exact ⟨_, hv, h⟩
  · rintro ⟨v, hv, h⟩
    exact .item hv h

theorem undecodable_object_iff {members : List (Option String × Value)} :
    (Value.object members).Undecodable ↔ ∃ e ∈ members, e.1 = none ∨ e.2.Undecodable := by
  constructor
  · intro h
    cases h with
    | key he => exact ⟨_, he, Or.inl rfl⟩
    | member he h => exact ⟨_, he, Or.inr h⟩
  · rintro ⟨⟨key, v⟩, he, hkey | h⟩
    · obtain rfl : key = none := hkey
      exact .key he
    · exact .member he h

/-- No more containers are entered than the node has levels. -/
theorem enters_le_levels {v : Value} {n : Nat} (h : Enters t v n) : n ≤ t.levels := by
  induction h with
  | root ht _ => exact Schema.levels_pos ht
  | item ht hi _ _ ih => exact Nat.succ_le_of_lt (Nat.lt_of_le_of_lt ih (Schema.levels_items ht hi))
  | member ht hp _ _ ih =>
      have hlt := Schema.levels_property ht (NameMap.mem_of_find? hp)
      exact Nat.succ_le_of_lt (Nat.lt_of_le_of_lt ih hlt)

/-- A value that breaks the rule of its node does not conform. -/
theorem not_conforms_of_breaks {v : Value} {violation : Violation}
    (h : Breaks mode t v violation) : ¬Conforms mode t v := by
  intro hv
  cases h with
  | any hk hm =>
      rw [conforms_any_iff hk, hm] at hv
      cases hv
  | wrongKind hany hkind hnull =>
      cases hv with
      | any hk _ => exact hany hk
      | scalar _ hv => exact hkind hv
      | absent hs _ => exact hnull ⟨hs, rfl⟩
      | null hk | emptyArray hk _ | array hk _ _ | object hk _ _ _ _ => exact hkind hk.symm
  | requiredNull hs hopt =>
      cases hv with
      | any hk _ | null hk =>
          rw [hk] at hs
          cases hs
      | scalar _ hv =>
          rw [← hv] at hs
          cases hs
      | absent _ hopt' =>
          rw [hopt] at hopt'
          cases hopt'
  | untypedItem hk hi =>
      obtain ⟨node, hnode, -⟩ := (conforms_array_iff hk).mp hv _ List.mem_cons_self
      rw [hi] at hnode
      cases hnode
  | @undeclared first more name v hk hm _ hname =>
      obtain ⟨hmembers, -⟩ := (conforms_object_iff hk).mp hv
      exact not_memberConforms_of_undeclared hm hname v (hmembers _ (by simp))
  | missing hk _ hp hopt hnone _ =>
      obtain ⟨-, hrequired⟩ := (conforms_object_iff hk).mp hv
      obtain ⟨e, he, heq⟩ := hrequired _ hp hopt
      exact hnone e he heq

end Jstn
