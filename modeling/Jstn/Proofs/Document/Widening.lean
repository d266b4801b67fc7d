import Jstn.Proofs.Document.Enclosed
import Jstn.Proofs.Document.MoreText
import Jstn.Proofs.Schema

/-!
# Wider schemas

A schema that asks less of a document (`Schema.Widens`) accepts all that the other accepts, in
lenient mode (`valid_of_widens`).

The walks along both schemas run side by side.  Either both are at the same place, or the walk
along the wider schema skips a value that the other one still visits (`StateWidens`).  The
skipped value ends at the same byte: skipping does what the visiting walk does without its
schema (`follows_step`), and the visiting walk inside the skipped value is a walk of its own
(`within_step`).

A walk that is doomed has nothing to be compared with.  It rejects in any case
(`upholds_run`).
-/

namespace Jstn

open Json (Byte.isBlank Position Skip)

/-- The second schema asks no more of a value than the first one. -/
inductive Schema.Widens : Schema → Schema → Prop
  /-- Any value is fine. -/
  | any {t t' : Schema} (optional : t.optional = true → t'.optional = true)
      (kind : t'.kind = .any) : Widens t t'
  /-- The values have the same scalar kind. -/
  | scalar {t t' : Schema} (optional : t.optional = true → t'.optional = true)
      (kind : t'.kind = t.kind) (scalar : t.kind.isScalar = true ∨ t.kind = .null) : Widens t t'
  /-- The first array has to be empty. -/
  | emptyArray {t t' : Schema} (optional : t.optional = true → t'.optional = true)
      (kind : t.kind = .array) (kind' : t'.kind = .array) (items : t.items = none) : Widens t t'
  /-- The items are asked for less. -/
  | array {t t' u u' : Schema} (optional : t.optional = true → t'.optional = true)
      (kind : t.kind = .array) (kind' : t'.kind = .array) (items : t.items = some u)
      (items' : t'.items = some u') (widens : Widens u u') : Widens t t'
  /-- Properties are dropped, and those that stay are asked for less. -/
  | object {t t' : Schema} (optional : t.optional = true → t'.optional = true)
      (kind : t.kind = .object) (kind' : t'.kind = .object)
      (declared : ∀ p ∈ t'.properties, ∃ u, t.property? p.1 = some u)
      (widens : ∀ p ∈ t'.properties, ∀ u, t.property? p.1 = some u → Widens u p.2) : Widens t t'

theorem Schema.Widens.optional {t t' : Schema} (h : t.Widens t') :
    t.optional = true → t'.optional = true := by
  cases h <;> assumption

namespace Walk

/-! ## Related nodes -/

/-- The second node asks no more of a value that is there.  It may be an `any` node that is not
optional, such as the one of a dropped property. -/
def NodeWidens (node node' : Schema) : Prop := node'.kind = .any ∨ node.Widens node'

/-- An item type, if there is one, is replaced by a wider one. -/
def ItemsWiden (items items' : Option Schema) : Prop :=
  ∀ node ∈ items, ∃ node' ∈ items', node.Widens node'

/-- Every property of the second list is one of the first list, with a wider type. -/
def PropertiesWiden (properties properties' : List (String × Schema)) : Prop :=
  ∀ p ∈ properties', ∃ node, NameMap.find? p.1 properties = some node ∧ node.Widens p.2

theorem missing?_widens {properties properties' : List (String × Schema)}
    (h : PropertiesWiden properties properties') {seen : List String}
    (hm : missing? properties seen = none) : missing? properties' seen = none := by
  simp only [missing?, Option.map_eq_none_iff, List.find?_eq_none, Bool.and_eq_true,
    Bool.not_eq_true', not_and, Bool.not_eq_false] at hm ⊢
  intro p hp hrequired
  obtain ⟨node, hnode, hwidens⟩ := h p hp
  have hnode' : node.optional = false := by
    cases hoptional : node.optional with
    | false => rfl
    | true =>
        rw [hwidens.optional hoptional] at hrequired
        cases hrequired
  exact hm (p.1, node) (NameMap.mem_of_find? hnode) hnode'

/-- The type of a property, declared or not, is widened too. -/
theorem nodeWidens_find? {properties properties' : List (String × Schema)}
    (h : PropertiesWiden properties properties') (name : String) :
    NodeWidens ((NameMap.find? name properties).getD .any)
      ((NameMap.find? name properties').getD .any) := by
  cases hfind : NameMap.find? name properties' with
  | none => exact Or.inl rfl
  | some node' =>
      obtain ⟨node, hnode, hwidens⟩ := h _ (NameMap.mem_of_find? hfind)
      rw [hnode]
      exact Or.inr hwidens

/-! ## Related states -/

/-- The visited containers are the same, at wider nodes. -/
inductive FramesWiden : List Frame → List Frame → Prop
  | root : FramesWiden [] []
  | array {items items' : Option Schema} {index : Nat} {outer outer' : List Frame} :
      ItemsWiden items items' → FramesWiden outer outer' →
      FramesWiden (.array items index :: outer) (.array items' index :: outer')
  | object {properties properties' : List (String × Schema)} {seen : List String}
      {name : String} {outer outer' : List Frame} :
      PropertiesWiden properties properties' → FramesWiden outer outer' →
      FramesWiden (.object properties seen name :: outer) (.object properties' seen name :: outer')

theorem FramesWiden.length_eq {outer outer' : List Frame} (h : FramesWiden outer outer') :
    outer'.length = outer.length := by
  induction h with
  | root => rfl
  | array _ _ ih | object _ _ ih => rw [List.length_cons, List.length_cons, ih]

/-- The same is due, at a wider node. -/
inductive TaskWidens : Task → Task → Prop
  | value {node node' : Schema} : NodeWidens node node' → TaskWidens (.value node) (.value node')
  | scalar {kind : Kind} {optional optional' : Bool} {first : UInt8} {watch : Json.Watch}
      {k : Skip} : (optional = true → optional' = true) →
      TaskWidens (.skip (.scalar kind optional first watch) k)
        (.skip (.scalar kind optional' first watch) k)
  | ended : TaskWidens .ended .ended
  | firstItem {items items' : Option Schema} : ItemsWiden items items' →
      TaskWidens (.firstItem items) (.firstItem items')
  | nextItem {items items' : Option Schema} {index : Nat} : ItemsWiden items items' →
      TaskWidens (.nextItem items index) (.nextItem items' index)
  | firstKey {properties properties' : List (String × Schema)} :
      PropertiesWiden properties properties' →
      TaskWidens (.firstKey properties) (.firstKey properties')
  | nextKey {properties properties' : List (String × Schema)} {seen : List String} :
      PropertiesWiden properties properties' →
      TaskWidens (.nextKey properties seen) (.nextKey properties' seen)
  | key {properties properties' : List (String × Schema)} {seen : List String}
      {t : Json.Literal.Decode} : PropertiesWiden properties properties' →
      TaskWidens (.key properties seen t) (.key properties' seen t)
  | colon {properties properties' : List (String × Schema)} {seen : List String}
      {name : String} {node node' : Schema} : PropertiesWiden properties properties' →
      NodeWidens node node' →
      TaskWidens (.colon properties seen name node) (.colon properties' seen name node')

/-- The second walk is where the first one is, or it skips what the first one visits. -/
inductive StateWidens : State → State → Prop
  | together {outer outer' : List Frame} {task task' : Task} : FramesWiden outer outer' →
      TaskWidens task task' → StateWidens ⟨outer, task⟩ ⟨outer', task'⟩
  | ignoring {inner outer outer' : List Frame} {task : Task} {k : Skip} :
      FramesWiden outer outer' → erase ⟨inner, task⟩ = some k →
      StateWidens ⟨inner ++ outer, task⟩ ⟨outer', .skip .ignore k⟩

/-- The second walk goes on beside the first one, unless that is doomed. -/
def ReplyWidens (r r' : Reply) : Prop :=
  ∀ s, r = .more s → (∀ place violation, ¬Doomed s place violation) →
    ∃ s', r' = .more s' ∧ StateWidens s s'

namespace ReplyWidens

theorem more {outer outer' : List Frame} {task task' : Task} (ho : FramesWiden outer outer')
    (ht : TaskWidens task task') : ReplyWidens (.more ⟨outer, task⟩) (.more ⟨outer', task'⟩) := by
  rintro s hs -
  cases hs
  exact ⟨_, rfl, .together ho ht⟩

theorem fault {fault : Json.Fault} {position : Position} {r : Reply} :
    ReplyWidens (.fault fault position) r := fun _ h => by cases h

theorem breach {found : Breach} {taken : Bool} {r : Reply} :
    ReplyWidens (.breach found taken) r := fun _ h => by cases h

theorem trailing {r : Reply} : ReplyWidens .trailing r := fun _ h => by cases h

theorem doomed {s : State} {place : Location} {violation : Violation} {r : Reply}
    (h : Doomed s place violation) : ReplyWidens (.more s) r := by
  intro s hs hfine
  cases hs
  exact absurd h (hfine place violation)

theorem condemned {r r' : Reply} {place : Location} {violation : Violation}
    (h : Condemns place violation r) : ReplyWidens r r' := by
  cases h with
  | more h => exact doomed h
  | breach => exact breach
  | fault => exact fault

theorem ite {c : Prop} [Decidable c] {r₁ r₂ r₁' r₂' : Reply} (ht : c → ReplyWidens r₁ r₁')
    (he : ¬c → ReplyWidens r₂ r₂') :
    ReplyWidens (if c then r₁ else r₂) (if c then r₁' else r₂') := by
  split
  next hc => exact ht hc
  next hc => exact he hc

end ReplyWidens

/-! ## One byte -/

section

variable {outer outer' : List Frame} {p : Position} {b : UInt8}

theorem widens_closeObject {properties properties' : List (String × Schema)} {seen : List String}
    (ho : FramesWiden outer outer') (h : PropertiesWiden properties properties') :
    ReplyWidens (closeObject outer properties seen) (closeObject outer' properties' seen) := by
  rw [closeObject, closeObject]
  cases hm : missing? properties seen with
  | none =>
      rw [missing?_widens h hm]
      exact .more ho .ended
  | some name => exact .breach

theorem widens_stepEnded (ho : FramesWiden outer outer') :
    ReplyWidens (stepEnded outer p b) (stepEnded outer' p b) := by
  rw [stepEnded.eq_def, stepEnded.eq_def]
  refine .ite (fun _ => .more ho .ended) fun _ => ?_
  cases ho with
  | root => exact .trailing
  | array hitems ho =>
      exact .ite (fun _ => .more ho .ended) fun _ =>
        .ite (fun _ => .more ho (.nextItem hitems)) fun _ => .fault
  | object hproperties ho =>
      exact .ite (fun _ => widens_closeObject ho hproperties) fun _ =>
        .ite (fun _ => .more ho (.nextKey hproperties)) fun _ => .fault

theorem erase_eq_none {s : State} (h : erase s = none) : s = ⟨[], .ended⟩ := by
  obtain ⟨outer, task⟩ := s
  cases task with
  | ended =>
      cases outer with
      | nil => rfl
      | cons frame outer => cases h
  | value _ | skip _ _ | word _ _ _ | number _ _ | string _ _ | firstItem _ | nextItem _ _
  | firstKey _ | nextKey _ _ | key _ _ _ | colon _ _ _ _ => cases h

/-- Skipping keeps up with the walk through the value that is skipped. -/
theorem widens_ignored {inner : List Frame} {task : Task} {k : Skip}
    (ho : FramesWiden outer outer') (hk : erase ⟨inner, task⟩ = some k) :
    ReplyWidens (step .lenient ⟨inner ++ outer, task⟩ p b) (stepSkip outer' .ignore k p b) := by
  intro s hs hfine
  have hinner := within_step s hs
  rw [stepSkip]
  cases hstep : step .lenient ⟨inner, task⟩ p b with
  | more s' =>
      rw [hstep] at hinner
      cases hinner
      have hfollows := follows_step hstep
      rw [hk] at hfollows
      cases hs' : erase s' with
      | some k' =>
          rw [hs'] at hfollows
          rw [show k.step b = .more k' from hfollows]
          exact ⟨_, rfl, .ignoring ho hs'⟩
      | none =>
          -- The visited value has ended with this byte, or before it if it was a number.
          rw [hs'] at hfollows
          obtain rfl := erase_eq_none hs'
          rcases hfollows with hdone | ⟨hstop, hb⟩
          · rw [hdone]
            exact ⟨_, rfl, .together ho .ended⟩
          · rw [hstop]
            exact ⟨_, if_pos hb, .together ho .ended⟩
  | trailing =>
      -- The byte belongs to the containers around the value, which both walks are in.
      rw [hstep] at hinner
      have htrails := trails_of_step hstep
      rw [htrails.2 k hk]
      exact widens_stepEnded ho s hinner hfine
  | fault _ _ | breach _ _ =>
      rw [hstep] at hinner
      cases hinner

/-- Where a null is fine it stays so. -/
theorem violation?_widens {kind found : Kind} {optional optional' : Bool}
    (h : optional = true → optional' = true)
    (hv : kind.violation? optional found = none) : kind.violation? optional' found = none := by
  rw [Kind.violation?] at hv ⊢
  split
  · rfl
  next hkind =>
    rw [if_neg hkind] at hv
    split
    next hnull =>
      rw [if_pos hnull] at hv
      split at hv
      next hoptional => rw [if_pos (h hoptional)]
      next => cases hv
    next hnull =>
      rw [if_neg hnull] at hv
      cases hv

/-- A sound value at a scalar node is so at a wider node. -/
theorem judge_widens {kind : Kind} {optional optional' : Bool} {first : UInt8}
    {watch : Json.Watch} (h : optional = true → optional' = true)
    (hj : judge outer (.scalar kind optional first watch) = .ok none) (outer' : List Frame) :
    judge outer' (.scalar kind optional' first watch) = .ok none := by
  cases watch with
  | broken position => cases hj
  | sound s lead =>
      simp only [judge, Except.ok.injEq, Option.map_eq_none_iff] at hj ⊢
      exact violation?_widens h hj

theorem widens_endSkip {kind : Kind} {optional optional' : Bool} {first : UInt8}
    {watch : Json.Watch} {taken : Bool} (ho : FramesWiden outer outer')
    (h : optional = true → optional' = true) :
    ReplyWidens (endSkip outer (.scalar kind optional first watch) taken p b)
      (endSkip outer' (.scalar kind optional' first watch) taken p b) := by
  rw [endSkip, endSkip]
  split
  next => exact .fault
  next => exact .breach
  next hj =>
    rw [judge_widens h hj outer']
    exact .ite (fun _ => .more ho .ended) fun _ => widens_stepEnded ho

theorem widens_scalar {kind : Kind} {optional optional' : Bool} {first : UInt8}
    {watch : Json.Watch} {k : Skip} (ho : FramesWiden outer outer')
    (h : optional = true → optional' = true) :
    ReplyWidens (stepSkip outer (.scalar kind optional first watch) k p b)
      (stepSkip outer' (.scalar kind optional' first watch) k p b) := by
  rw [stepSkip, stepSkip]
  cases k.step b with
  | more k' => exact .more ho (.scalar h)
  | done _ | stop _ => exact widens_endSkip ho h
  | fail fault side => exact .fault

theorem widens_beginVisit {node node' : Schema} (ho : FramesWiden outer outer')
    (hkind : node'.kind = node.kind)
    (harray : node.kind = .array → ItemsWiden node.items node'.items)
    (hobject : node.kind = .object → PropertiesWiden node.properties node'.properties) :
    ReplyWidens (beginVisit outer node p b) (beginVisit outer' node' p b) := by
  rw [beginVisit, beginVisit]
  refine .ite (fun _ => .doomed .string) fun _ => ?_
  split
  next => exact .doomed .word
  next => exact .doomed .number
  next =>
    rw [ho.length_eq]
    refine .ite (fun _ => .fault) fun _ => ?_
    rw [hkind]
    split
    next hk _ => exact .more ho (.firstItem (harray hk))
    next hk _ => exact .more ho (.firstKey (hobject hk))
    next => exact .breach
    next => exact .breach
  next => exact .fault

theorem widens_beginAny {node node' : Schema} (ho : FramesWiden outer outer')
    (hb : Byte.isBlank b = false) (hk : node'.kind = .any) :
    ReplyWidens (beginValue outer node p b) (beginValue outer' node' p b) := by
  -- The value is skipped from its first byte on, so the walk through it starts with no frames.
  have hvisit : step .lenient ⟨[] ++ outer, .value node⟩ p b = beginValue outer node p b :=
    if_neg (by simp [hb])
  have hskip : beginValue outer' node' p b = stepSkip outer' .ignore .start p b := by
    rw [beginValue, hk]
  rw [← hvisit, hskip]
  exact widens_ignored ho rfl

theorem widens_beginValue {node node' : Schema} (ho : FramesWiden outer outer')
    (hb : Byte.isBlank b = false) (h : NodeWidens node node') :
    ReplyWidens (beginValue outer node p b) (beginValue outer' node' p b) := by
  rcases h with hany | h
  · exact widens_beginAny ho hb hany
  · cases h with
    | any _ kind => exact widens_beginAny ho hb kind
    | scalar optional kind scalar =>
        rw [beginValue, beginValue, kind]
        cases hk : node.kind with
        | string | number | boolean | null => exact widens_scalar ho optional
        | object | array | any =>
            rw [hk] at scalar
            rcases scalar with h | h <;> cases h
    | emptyArray _ kind kind' items =>
        rw [beginValue, beginValue, kind, kind']
        refine widens_beginVisit ho (kind'.trans kind.symm) (fun _ => ?_) (fun hobject => ?_)
        · rintro u hu
          cases items.symm.trans hu
        · cases kind.symm.trans hobject
    | array _ kind kind' items items' widens =>
        rw [beginValue, beginValue, kind, kind']
        refine widens_beginVisit ho (kind'.trans kind.symm) (fun _ => ?_) (fun hobject => ?_)
        · rintro u hu
          cases items.symm.trans hu
          exact ⟨_, items', widens⟩
        · cases kind.symm.trans hobject
    | object _ kind kind' declared widens =>
        rw [beginValue, beginValue, kind, kind']
        refine widens_beginVisit ho (kind'.trans kind.symm) (fun harray => ?_) (fun _ => ?_)
        · cases kind.symm.trans harray
        · intro q hq
          obtain ⟨u, hu⟩ := declared q hq
          exact ⟨u, hu, widens q hq u hu⟩

theorem widens_beginItem {items items' : Option Schema} {index : Nat}
    (ho : FramesWiden outer outer') (hb : Byte.isBlank b = false) (h : ItemsWiden items items') :
    ReplyWidens (beginItem .lenient outer items index p b)
      (beginItem .lenient outer' items' index p b) := by
  cases items with
  | none => exact .condemned (condemns_stepSkip rfl .start p b)
  | some node =>
      obtain ⟨node', rfl, hwidens⟩ := h node rfl
      exact widens_beginValue (.array h ho) hb (Or.inr hwidens)

theorem widens_beginKey {properties properties' : List (String × Schema)} {seen : List String}
    (ho : FramesWiden outer outer') (h : PropertiesWiden properties properties') :
    ReplyWidens (beginKey outer properties seen p b) (beginKey outer' properties' seen p b) :=
  .ite (fun _ => .more ho (.key h)) fun _ => .fault

theorem endKey_lenient {properties : List (String × Schema)} {seen : List String}
    {decoded : List UInt8} {name : String} (hname : Json.Literal.text decoded p = .ok name) :
    endKey .lenient outer properties seen decoded p =
      .more ⟨outer, .colon properties seen name
        ((NameMap.find? name properties).getD .any)⟩ := by
  rw [endKey.eq_def, hname]
  simp only
  cases NameMap.find? name properties with
  | none => rfl
  | some node => rfl

theorem widens_endKey {properties properties' : List (String × Schema)} {seen : List String}
    {decoded : List UInt8} (ho : FramesWiden outer outer')
    (h : PropertiesWiden properties properties') :
    ReplyWidens (endKey .lenient outer properties seen decoded p)
      (endKey .lenient outer' properties' seen decoded p) := by
  cases hname : Json.Literal.text decoded p with
  | error e =>
      rw [endKey.eq_def, hname]
      exact .fault
  | ok name =>
      rw [endKey_lenient hname, endKey_lenient hname]
      exact .more ho (.colon h (nodeWidens_find? h name))

/-- Walks at related places take related steps. -/
theorem widens_task {task task' : Task} (ho : FramesWiden outer outer')
    (h : TaskWidens task task') :
    ReplyWidens (step .lenient ⟨outer, task⟩ p b) (step .lenient ⟨outer', task'⟩ p b) := by
  have hblank : ¬Byte.isBlank b = true → Byte.isBlank b = false := eq_false_of_ne_true
  cases h with
  | value h =>
      exact .ite (fun _ => .more ho (.value h)) fun hb => widens_beginValue ho (hblank hb) h
  | scalar h => exact widens_scalar ho h
  | ended => exact widens_stepEnded ho
  | firstItem h =>
      exact .ite (fun _ => .more ho (.firstItem h)) fun hb =>
        .ite (fun _ => .more ho .ended) fun _ => widens_beginItem ho (hblank hb) h
  | nextItem h =>
      exact .ite (fun _ => .more ho (.nextItem h)) fun hb =>
        .ite (fun _ => .fault) fun _ => widens_beginItem ho (hblank hb) h
  | firstKey h =>
      exact .ite (fun _ => .more ho (.firstKey h)) fun _ =>
        .ite (fun _ => widens_closeObject ho h) fun _ => widens_beginKey ho h
  | nextKey h =>
      exact .ite (fun _ => .more ho (.nextKey h)) fun _ =>
        .ite (fun _ => .fault) fun _ => widens_beginKey ho h
  | @key _ _ _ t h =>
      simp only [step]
      cases t.step b with
      | more t => exact .more ho (.key h)
      | done decoded | stop decoded => exact widens_endKey ho h
      | fail fault side => exact .fault
  | colon h hnode =>
      exact .ite (fun _ => .more ho (.colon h hnode)) fun _ =>
        .ite (fun _ => .more (.object h ho) (.value hnode)) fun _ => .fault

end

theorem widens_step {s s' : State} (h : StateWidens s s') (p : Position) (b : UInt8) :
    ReplyWidens (step .lenient s p b) (step .lenient s' p b) := by
  cases h with
  | together ho ht => exact widens_task ho ht
  | ignoring ho hk => exact widens_ignored ho hk

/-! ## Whole walks -/

theorem widens_finish {s s' : State} {p : Position} (h : StateWidens s s')
    (hok : finish s p = .ok ()) : finish s' p = .ok () := by
  have hf := finishes s p
  rw [hok] at hf
  cases h with
  | together ho ht =>
      cases hf with
      | ended =>
          cases ho
          cases ht
          rfl
      | skipped hk hj =>
          cases ho
          cases ht with
          | scalar h =>
              simp only [finish, hk, judge_widens h hj []]
              rfl
  | @ignoring inner outer outer' task k ho hk =>
      have hskip := skipFrom_of_finish hok
      have houter : inner ++ outer = [] := by
        generalize inner ++ outer = frames at hf
        cases hf <;> rfl
      obtain ⟨rfl, rfl⟩ := List.append_eq_nil_iff.mp houter
      cases ho
      rw [List.append_nil, hk, skipFrom, Skip.runFrom_nil] at hskip
      simp only [finish]
      cases hfinish : k.finish with
      | ok _ => rfl
      | error fault =>
          rw [hfinish] at hskip
          cases hskip

/-- What a walk accepts the walk at wider nodes accepts. -/
theorem widens_run {s s' : State} {p : Position} {bytes : List UInt8} (h : StateWidens s s')
    (hok : run .lenient s p bytes = .ok ()) : run .lenient s' p bytes = .ok () := by
  induction bytes generalizing s s' p with
  | nil => exact widens_finish h hok
  | cons b bytes ih =>
      rw [run] at hok ⊢
      cases hs : step .lenient s p b with
      | more s₁ =>
          rw [hs] at hok
          -- A walk that accepts in the end has never been doomed.
          have hfine : ∀ place violation, ¬Doomed s₁ place violation := fun _ _ hdoomed =>
            (upholds_run hdoomed none (p.after b) bytes).ne_ok hok
          obtain ⟨s₁', hs', h₁⟩ := widens_step h p b s₁ hs hfine
          rw [hs']
          exact ih h₁ hok
      | fault _ _ | breach _ _ | trailing =>
          rw [hs] at hok
          cases hok

end Walk

/-- A document that a schema accepts in lenient mode is accepted by every wider schema. -/
theorem valid_of_widens {t t' : Schema} (h : t.Widens t') {document : List UInt8}
    (hvalid : valid t document = true) : valid t' document = true := by
  rw [valid_eq_true_iff] at hvalid ⊢
  unfold check at hvalid ⊢
  split
  next hblank =>
    rw [if_pos hblank] at hvalid
    split at hvalid
    next hoptional => exact if_pos (h.optional hoptional)
    next => cases hvalid
  next hblank =>
    rw [if_neg hblank] at hvalid
    exact Walk.widens_run (.together .root (.value (Or.inr h))) hvalid

/-- A property is dropped and the items of another become optional. -/
theorem valid_of_widens_dropped :
    let t := Schema.object [("a", .array .number), ("b", .object [])]
    let t' := Schema.object [("a", .array Schema.number.asOptional)]
    let document := Utf8.encode "\x7b\"a\":[1,2e3],\"b\":\x7b\"c\":[]\x7d\x7d"
    t.Widens t' ∧ valid t document = true ∧ valid t' document = true := by
  intro t t' document
  have hitems : Schema.number.Widens Schema.number.asOptional :=
    .scalar (fun _ => rfl) rfl (Or.inl rfl)
  have harray : (Schema.array .number).Widens (.array Schema.number.asOptional) :=
    .array id rfl rfl rfl rfl hitems
  have hproperties : t'.properties = [("a", .array Schema.number.asOptional)] := rfl
  have ha : t.property? "a" = some (.array .number) := by decide +kernel
  have hwidens : t.Widens t' := by
    refine .object id rfl rfl ?_ ?_ <;> rw [hproperties] <;> rintro q hq <;>
      cases List.mem_singleton.mp hq
    · exact ⟨_, ha⟩
    · intro u hu
      cases ha.symm.trans hu
      exact harray
  have hvalid : valid t document = true := by decide +kernel
  exact ⟨hwidens, hvalid, valid_of_widens hwidens hvalid⟩

end Jstn
