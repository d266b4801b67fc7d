import Jstn.Kind
import Jstn.NameMap

/-!
# Schema trees

A schema is a tree.  Each node has a kind and an optional flag.  The properties
matter at an object node only and the item type at an array node only.  A node
of another kind may still carry them: they are kept, equality sees them, and
neither the printer nor the validator looks at them.

The properties of a node are a `NameMap`.  Every constructor and every edit
here keeps them in ascending order of their names.

The type is nested, so the induction principle that comes with it speaks of
lists and pairs.  `Schema.induction` gives one hypothesis per property and one
for the item type.
-/

namespace Jstn

/-- A node of a schema tree. -/
structure Schema where
  /-- What the node describes. -/
  kind : Kind
  /-- The value may be absent, or null where the kind is a scalar one. -/
  optional : Bool := false
  /-- The declared properties, in ascending order of their names. -/
  properties : List (String × Schema) := []
  /-- The type of every item.  An array without it has to be empty. -/
  items : Option Schema := none
deriving Inhabited

namespace Schema

/-- Induction over schema trees. -/
@[elab_as_elim, induction_eliminator]
theorem induction {motive : Schema → Prop}
    (node : ∀ kind optional properties items,
      (∀ p ∈ properties, motive p.2) → (∀ t, items = some t → motive t) →
      motive ⟨kind, optional, properties, items⟩)
    (t : Schema) : motive t :=
  Schema.rec (motive_1 := motive)
    (motive_2 := fun ps => ∀ p ∈ ps, motive p.2)
    (motive_3 := fun it => ∀ t, it = some t → motive t)
    (motive_4 := fun p => motive p.2)
    node
    (fun _ h => absurd h List.not_mem_nil)
    (fun _ _ hp hps q hq => (List.mem_cons.mp hq).elim (fun h => h ▸ hp) (hps q))
    (fun _ h => nomatch h)
    (fun _ ht _ h => Option.some.inj h ▸ ht)
    (fun _ _ ht => ht)
    t

/-! ## Equality -/

mutual

/-- Whether two trees are equal. -/
def decEq : (s t : Schema) → Decidable (s = t)
  | ⟨k, o, ps, it⟩, ⟨k', o', ps', it'⟩ =>
      if hk : k = k' ∧ o = o' then
        match decEqProperties ps ps', decEqItems it it' with
        | isTrue hp, isTrue hi => isTrue (by rw [hk.1, hk.2, hp, hi])
        | isFalse hp, _ => isFalse fun h => hp (Schema.mk.inj h).2.2.1
        | _, isFalse hi => isFalse fun h => hi (Schema.mk.inj h).2.2.2
      else isFalse fun h => hk ⟨(Schema.mk.inj h).1, (Schema.mk.inj h).2.1⟩

/-- Whether two lists of properties are equal. -/
def decEqProperties : (ps qs : List (String × Schema)) → Decidable (ps = qs)
  | [], [] => isTrue rfl
  | [], _ :: _ => isFalse nofun
  | _ :: _, [] => isFalse nofun
  | (n, s) :: ps, (m, t) :: qs =>
      if hn : n = m then
        match decEq s t, decEqProperties ps qs with
        | isTrue ht, isTrue hp => isTrue (by rw [hn, ht, hp])
        | isFalse ht, _ => isFalse fun h => ht (Prod.mk.inj (List.cons.inj h).1).2
        | _, isFalse hp => isFalse fun h => hp (List.cons.inj h).2
      else isFalse fun h => hn (Prod.mk.inj (List.cons.inj h).1).1

/-- Whether two item types are equal, or both absent. -/
def decEqItems : (s t : Option Schema) → Decidable (s = t)
  | none, none => isTrue rfl
  | none, some _ => isFalse nofun
  | some _, none => isFalse nofun
  | some s, some t =>
      match decEq s t with
      | isTrue h => isTrue (congrArg some h)
      | isFalse h => isFalse fun he => h (Option.some.inj he)

end

instance : DecidableEq Schema := decEq

/-! ## Constructors -/

/-- A node that only has a kind. -/
def ofKind (kind : Kind) : Schema := { kind }

/-- The type of strings. -/
def string : Schema := ofKind .string

/-- The type of numbers. -/
def number : Schema := ofKind .number

/-- The type of booleans. -/
def boolean : Schema := ofKind .boolean

/-- The type of null. -/
def null : Schema := ofKind .null

/-- The type of every value. -/
def any : Schema := ofKind .any

/-- An array all of whose items have one type. -/
def array (items : Schema) : Schema := { kind := .array, items := some items }

/-- An array without an item type. -/
def emptyArray : Schema := ofKind .array

/-- An object with the given properties, of which a later one replaces an
earlier one of the same name. -/
def object (properties : List (String × Schema)) : Schema :=
  { kind := .object, properties := NameMap.ofPairs properties }

/-- The same node, marked as optional. -/
def asOptional (t : Schema) : Schema := { t with optional := true }

/-! ## Looking at a node -/

/-- The declared type of a property. -/
def property? (t : Schema) (name : String) : Option Schema := NameMap.find? name t.properties

/-- Whether the node describes an object. -/
def isObject (t : Schema) : Bool := t.kind = .object

/-- Whether the node describes an array. -/
def isArray (t : Schema) : Bool := t.kind = .array

/-- The names of the properties that may not be absent, in ascending order. -/
def requiredNames (t : Schema) : List String :=
  (t.properties.filter fun p => !p.2.optional).map Prod.fst

/-! ## Edits -/

/-- The node with another kind. -/
def withKind (t : Schema) (kind : Kind) : Schema := { t with kind }

/-- The node with another optional flag. -/
def withOptional (t : Schema) (optional : Bool) : Schema := { t with optional }

/-- The node with a property of the given name and type. -/
def insert (t : Schema) (name : String) (child : Schema) : Schema :=
  { t with properties := NameMap.insert name child t.properties }

/-- The node without the property of the given name. -/
def erase (t : Schema) (name : String) : Schema :=
  { t with properties := NameMap.erase name t.properties }

/-- The node with another item type, or with none. -/
def withItems (t : Schema) (items : Option Schema) : Schema := { t with items }

example :
    (object [("b", number), ("a", string.asOptional), ("b", null)]).requiredNames = ["b"] := by
  decide
example : (object [("b", number), ("b", null)]).property? "b" = some null := by decide
example : emptyArray.withKind .object = object [] := by decide

end Schema

end Jstn
