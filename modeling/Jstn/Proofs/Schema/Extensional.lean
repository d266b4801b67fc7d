import Jstn.Print
import Jstn.Proofs.Parse.WellFormed
import Jstn.Proofs.Text.ByteOrder
import Jstn.Schema.Assembly

/-!
# Trees are extensional

A tree is what a look at it can tell: the kind, the mark, the item type and the type under
each name, for the root and so on down the tree.  That takes an order that is always kept.  It
is the order of names as texts, and that is also the order of their bytes.

`Built` says that a tree has been made by the constructors, by edits and by parsing, in any
number and order.  An edit inside a tree is among these: a part is taken out, edited and put
back.  So is every tree that an assembly puts together, step by step (`built_of_run`).  All
such trees are ordered at every node (`ordered_of_built`), whence maps with the same look-ups
are the same list (`eq_iff_parts_eq`).  A list of pairs is a tree by what it binds last to each
name and by nothing else (`object_eq_iff`).
-/

namespace Jstn

/-- The names stand in strictly ascending order of their bytes. -/
def ByteAscending (names : List String) : Prop :=
  names.Pairwise fun m n => Utf8.encode m < Utf8.encode n

theorem byteAscending_names {α : Type} {m : NameMap α} (h : NameMap.Ascending m) :
    ByteAscending (NameMap.names m) :=
  List.pairwise_map.mpr (h.imp Utf8.encode_lt_iff.mpr)

theorem ByteAscending.sublist {names names' : List String} (h : ByteAscending names)
    (hsub : names'.Sublist names) : ByteAscending names' := List.Pairwise.sublist hsub h

theorem ByteAscending.nodup {names : List String} (h : ByteAscending names) : names.Nodup := by
  refine h.imp fun {m n} hlt heq => ?_
  rw [heq] at hlt
  exact List.lt_irrefl _ hlt

namespace Schema

/-! ## Trees that are built -/

/-- A tree that constructors, edits and parsing have made. -/
inductive Built : Schema → Prop
  | ofKind (kind : Kind) : Built (ofKind kind)
  | array {t : Schema} : Built t → Built (array t)
  | object {ps : List (String × Schema)} : (∀ p ∈ ps, Built p.2) → Built (object ps)
  | parsed {source : String} {t : Schema} : parse source = .ok t → Built t
  | asOptional {t : Schema} : Built t → Built t.asOptional
  | withKind {t : Schema} (kind : Kind) : Built t → Built (t.withKind kind)
  | withOptional {t : Schema} (optional : Bool) : Built t → Built (t.withOptional optional)
  | insert {t child : Schema} (name : String) :
      Built t → Built child → Built (t.insert name child)
  | erase {t : Schema} (name : String) : Built t → Built (t.erase name)
  | setItems {t child : Schema} : Built t → Built child → Built (t.withItems (some child))
  | clearItems {t : Schema} : Built t → Built (t.withItems none)
  | property {t child : Schema} {name : String} :
      Built t → t.property? name = some child → Built child
  | item {t child : Schema} : Built t → t.items = some child → Built child

/-- Whatever has made a tree has kept its properties in order. -/
theorem ordered_of_built {t : Schema} (h : Built t) : Ordered t := by
  induction h with
  | ofKind kind => exact .ofKind kind
  | array _ ih => exact ih.array
  | object _ ih => exact .object ih
  | parsed h => exact (parsed_of_parse h).ordered
  | asOptional _ ih => exact ih.withOptional true
  | withKind kind _ ih => exact ih.withKind kind
  | withOptional optional _ ih => exact ih.withOptional optional
  | insert name _ _ ih ihchild => exact ih.insert name ihchild
  | erase name _ ih => exact ih.erase name
  | setItems _ _ ih ihchild => exact ih.withItems fun _ h => Option.some.inj h ▸ ihchild
  | clearItems _ ih => exact ih.withItems nofun
  | property _ hp ih => exact ih.property (NameMap.mem_of_find? hp)
  | item _ hi ih => exact ih.item hi

theorem ascending_of_path {t : Schema} {nodes : List Schema} (h : Path t nodes)
    (ho : Ordered t) : ∀ node ∈ nodes, NameMap.Ascending node.properties := by
  induction h with
  | root => exact List.forall_mem_singleton.mpr ho.ascending
  | property hp _ ih => exact List.forall_mem_cons.mpr ⟨ho.ascending, ih (ho.property hp)⟩
  | item hi _ ih => exact List.forall_mem_cons.mpr ⟨ho.ascending, ih (ho.item hi)⟩

/-! ## Equality -/

/-- Trees whose properties are maps are equal if a look at their roots tells no difference. -/
theorem eq_iff_parts_eq {s t : Schema} (hs : NameMap.Ascending s.properties)
    (ht : NameMap.Ascending t.properties) :
    s = t ↔ s.kind = t.kind ∧ s.optional = t.optional ∧ s.items = t.items ∧
      ∀ name, s.property? name = t.property? name := by
  constructor
  · rintro rfl
    exact ⟨rfl, rfl, rfl, fun _ => rfl⟩
  · rintro ⟨hkind, hoptional, hitems, hproperties⟩
    have hmaps : s.properties = t.properties := NameMap.eq_of_find?_eq hs ht hproperties
    obtain ⟨kind, optional, properties, items⟩ := s
    obtain ⟨kind', optional', properties', items'⟩ := t
    cases hkind
    cases hoptional
    cases hitems
    cases hmaps
    rfl

/-- Lists of pairs are the same object if they bind each name last to the same type. -/
theorem object_eq_iff {ps qs : List (String × Schema)} :
    object ps = object qs ↔ ∀ name, lastOf? ps name = lastOf? qs name := by
  rw [eq_iff_parts_eq (NameMap.ascending_ofPairs ps) (NameMap.ascending_ofPairs qs)]
  simp only [property?_object]
  exact ⟨fun h => h.2.2.2, fun h => ⟨rfl, rfl, rfl, h⟩⟩

/-! ## Names that may not be absent -/

theorem requiredNames_sublist (t : Schema) :
    t.requiredNames.Sublist (NameMap.names t.properties) := List.filter_sublist.map Prod.fst

theorem mem_requiredNames_iff {t : Schema} (h : NameMap.Ascending t.properties) {name : String} :
    name ∈ t.requiredNames ↔ ∃ p, t.property? name = some p ∧ p.optional = false := by
  constructor
  · intro hname
    obtain ⟨⟨_, p⟩, hp, rfl⟩ := List.mem_map.mp hname
    obtain ⟨hmem, hrequired⟩ := List.mem_filter.mp hp
    exact ⟨p, NameMap.find?_of_mem h hmem, by simpa using hrequired⟩
  · rintro ⟨p, hp, hrequired⟩
    refine List.mem_map.mpr ⟨(name, p), List.mem_filter.mpr ⟨NameMap.mem_of_find? hp, ?_⟩, rfl⟩
    rw [hrequired]
    rfl

end Schema

open Schema (Built Path lastOf?)

/-! ## Trees that an assembly puts together -/

namespace Assembly

variable {stack stack' : Assembly}

/-- A property that is looked up goes on top of its tree, if there is one. -/
theorem step_property (t : Schema) (name : String) (stack : Assembly) :
    Step.apply? (.property name) (t :: stack) =
      some ((t.property? name).toList ++ t :: stack) := by
  unfold Step.apply?
  dsimp only
  cases t.property? name <;> rfl

/-- The top is replaced. -/
theorem built_top {t t' : Schema} (hstack : ∀ u ∈ t :: stack, Built u) (h : Built t → Built t') :
    ∀ u ∈ t' :: stack, Built u := by
  obtain ⟨ht, hstack⟩ := List.forall_mem_cons.mp hstack
  exact List.forall_mem_cons.mpr ⟨h ht, hstack⟩

/-- What a step puts on the stack is built, if it pushes nothing that is not. -/
theorem built_of_step {step : Step} (hstack : ∀ t ∈ stack, Built t)
    (hpush : ∀ t, step = .push t → Built t) (h : step.apply? stack = some stack') :
    ∀ t ∈ stack', Built t := by
  match step, stack, h with
  | .push t, _, h =>
      cases h
      exact List.forall_mem_cons.mpr ⟨hpush t rfl, hstack⟩
  | .object names, stack, h =>
      by_cases hlen : names.length ≤ stack.length
      · cases (if_pos hlen).symm.trans h
        refine List.forall_mem_cons.mpr ⟨.object fun p hp => ?_, fun t ht => ?_⟩
        · exact hstack p.2 (List.mem_of_mem_take (List.mem_reverse.mp (List.of_mem_zip hp).2))
        · exact hstack t (List.mem_of_mem_drop ht)
      · cases (if_neg hlen).symm.trans h
  | .property name, t :: stack, h =>
      rw [step_property] at h
      cases h
      have ht : Built t := (List.forall_mem_cons.mp hstack).1
      refine List.forall_mem_append.mpr ⟨fun child hchild => ?_, hstack⟩
      exact ht.property (Option.mem_toList.mp hchild)
  | .duplicate, t :: stack, h =>
      cases h
      exact List.forall_mem_cons.mpr ⟨(List.forall_mem_cons.mp hstack).1, hstack⟩
  | .drop, t :: stack, h =>
      cases h
      exact (List.forall_mem_cons.mp hstack).2
  | .swap, s :: t :: stack, h =>
      cases h
      obtain ⟨hs, hstack⟩ := List.forall_mem_cons.mp hstack
      obtain ⟨ht, hstack⟩ := List.forall_mem_cons.mp hstack
      exact List.forall_mem_cons.mpr ⟨ht, List.forall_mem_cons.mpr ⟨hs, hstack⟩⟩
  | .array, t :: stack, h =>
      cases h
      exact built_top hstack .array
  | .asOptional, t :: stack, h =>
      cases h
      exact built_top hstack .asOptional
  | .setKind kind, t :: stack, h =>
      cases h
      exact built_top hstack (.withKind kind)
  | .setOptional optional, t :: stack, h =>
      cases h
      exact built_top hstack (.withOptional optional)
  | .erase name, t :: stack, h =>
      cases h
      exact built_top hstack (.erase name)
  | .clearItems, t :: stack, h =>
      cases h
      exact built_top hstack .clearItems
  | .insert name, child :: t :: stack, h =>
      cases h
      obtain ⟨hchild, hstack⟩ := List.forall_mem_cons.mp hstack
      exact built_top hstack fun ht => .insert name ht hchild
  | .setItems, child :: t :: stack, h =>
      cases h
      obtain ⟨hchild, hstack⟩ := List.forall_mem_cons.mp hstack
      exact built_top hstack fun ht => .setItems ht hchild

/-- Whatever is put together from built trees is built. -/
theorem built_of_run {steps : List Step} (hstack : ∀ t ∈ stack, Built t)
    (hpush : ∀ t, .push t ∈ steps → Built t) (h : run? steps stack = some stack') :
    ∀ t ∈ stack', Built t := by
  induction steps generalizing stack with
  | nil =>
      cases h
      exact hstack
  | cons step steps ih =>
      rw [run?, List.foldlM_cons] at h
      obtain ⟨stack₁, hstep, h⟩ := Option.bind_eq_some_iff.mp h
      refine ih (built_of_step hstack (fun t ht => hpush t ?_) hstep)
        (fun t ht => hpush t (List.mem_cons_of_mem _ ht)) h
      rw [ht]
      exact List.mem_cons_self

end Assembly

/-- Trees that are built are in order at every node.  So they are equal just if their roots
look equal, the names that may not be absent come in order and once each, and an object is
what its pairs bind last, in its text too.  An assembly from built trees makes built trees. -/
theorem built_extensional {s t : Schema} (hs : Built s) (ht : Built t) :
    (∀ nodes, Path t nodes → ∀ node ∈ nodes, ByteAscending (NameMap.names node.properties)) ∧
      (s = t ↔ s.kind = t.kind ∧ s.optional = t.optional ∧ s.items = t.items ∧
        ∀ name, s.property? name = t.property? name) ∧
      (ByteAscending t.requiredNames ∧ t.requiredNames.Nodup ∧
        ∀ name, name ∈ t.requiredNames ↔ ∃ p, t.property? name = some p ∧ p.optional = false) ∧
      (∀ ps qs, (∀ name, lastOf? ps name = lastOf? qs name) →
        Schema.object ps = Schema.object qs ∧
          (Schema.object ps).canonical = (Schema.object qs).canonical ∧
          (Schema.object ps).pretty = (Schema.object qs).pretty) ∧
      ∀ steps stack, (∀ u, .push u ∈ steps → Built u) →
        Assembly.run? steps [] = some stack → ∀ u ∈ stack, Built u := by
  have horder := Schema.ordered_of_built ht
  have hrequired : ByteAscending t.requiredNames :=
    (byteAscending_names horder.ascending).sublist t.requiredNames_sublist
  refine ⟨fun nodes hpath node hnode => ?_, ?_,
    ⟨hrequired, hrequired.nodup, fun name => Schema.mem_requiredNames_iff horder.ascending⟩, ?_,
    fun steps stack => Assembly.built_of_run nofun⟩
  · exact byteAscending_names (Schema.ascending_of_path hpath horder node hnode)
  · exact Schema.eq_iff_parts_eq (Schema.ordered_of_built hs).ascending horder.ascending
  · intro ps qs h
    have hobject := Schema.object_eq_iff.mpr h
    exact ⟨hobject, congrArg Schema.canonical hobject, congrArg Schema.pretty hobject⟩

/-- An object that is edited.  A symbol outside the first plane comes after every other
character, although it would not in the order of UTF-16. -/
def editedObject : Schema :=
  (((Schema.object []).insert "😀" .string).insert "b" .any |>.insert "～" .null).erase "b"

/-- The same object from a list that binds a name twice. -/
def listedObject : Schema := .object [("～", .any), ("😀", .string), ("～", .null)]

theorem built_extensional_symbols :
    (Built editedObject ∧ Built listedObject) ∧ editedObject = listedObject ∧
      ByteAscending listedObject.requiredNames ∧ listedObject.requiredNames = ["～", "😀"] := by
  have hback : Parse.ReadsBack .canonical (Schema.object []) :=
    Parse.readsBack_of_named .canonical (.node nofun nofun nofun) (.object nofun)
  have hempty : parse (Schema.object []).canonical = .ok (Schema.object []) :=
    Parse.parse_of_readsBack hback (by decide)
  have hfirst : Built ((Schema.object []).insert "😀" .string) :=
    .insert "😀" (.parsed hempty) (.ofKind .string)
  have hedited : Built editedObject :=
    .erase "b" (.insert "～" (.insert "b" hfirst (.ofKind .any)) (.ofKind .null))
  have hlisted : Built listedObject := by
    refine .object (List.forall_mem_cons.mpr ⟨.ofKind .any, ?_⟩)
    exact List.forall_mem_cons.mpr ⟨.ofKind .string, List.forall_mem_singleton.mpr (.ofKind .null)⟩
  obtain ⟨-, heq, ⟨hrequired, -, -⟩, -⟩ := built_extensional hedited hlisted
  have hproperties : editedObject.properties = listedObject.properties := by decide
  refine ⟨⟨hedited, hlisted⟩, heq.mpr ⟨rfl, rfl, rfl, fun name => ?_⟩, hrequired, by decide⟩
  rw [Schema.property?, Schema.property?, hproperties]

end Jstn
