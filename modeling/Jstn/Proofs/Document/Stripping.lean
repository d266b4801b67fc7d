import Jstn.Document.Check
import Jstn.Proofs.Print

/-!
# Parts that are not used

A node may carry parts that its kind does not use.  Neither the printer nor the validator
looks at them, so a tree and what `Schema.strip` leaves of it cannot be told apart
(`strip_indistinguishable`).

The printer is a recursion over the tree, and so is the proof for it (`Schema.chars_strip`).
The walk is a machine.  `State.strip` strips every tree that a state holds, the ones of the
frames included, and a step from the stripped state is the stripped reply (`step_strip`).
A reply that ends the walk holds no tree, so it is the same for both (`run_strip`).
-/

namespace Jstn

open Json (Container Position)

namespace Schema

/-! ## Stripped nodes -/

@[simp] theorem kind_strip (t : Schema) : t.strip.kind = t.kind := by
  cases t
  rfl

@[simp] theorem optional_strip (t : Schema) : t.strip.optional = t.optional := by
  cases t
  rfl

theorem items_strip {t : Schema} (h : t.kind = .array) : t.strip.items = stripItems t.items := by
  cases t
  exact if_pos h

theorem properties_strip {t : Schema} (h : t.kind = .object) :
    t.strip.properties = stripProperties t.properties := by
  cases t
  exact if_pos h

theorem find?_stripProperties (name : String) (ps : List (String × Schema)) :
    NameMap.find? name (stripProperties ps) = (NameMap.find? name ps).map strip := by
  induction ps with
  | nil => rfl
  | cons p ps ih =>
      rw [stripProperties, NameMap.find?, NameMap.find?, ih]
      split <;> rfl

/-! ## Printing -/

theorem memberChars_strip {format : Format} {depth : Nat} {ps : List (String × Schema)}
    (h : ∀ p ∈ ps, p.2.strip.chars format depth = p.2.chars format depth) :
    memberChars format depth (stripProperties ps) = memberChars format depth ps := by
  induction ps with
  | nil => rfl
  | cons p ps ih =>
      obtain ⟨hp, hps⟩ := List.forall_mem_cons.mp h
      rw [stripProperties, memberChars, memberChars, hp, ih hps]

/-- The text of a tree shows nothing of the parts that are not used. -/
theorem chars_strip (format : Format) (depth : Nat) (t : Schema) :
    t.strip.chars format depth = t.chars format depth := by
  induction t generalizing depth with
  | node kind optional properties items ihproperties ihitems =>
      cases kind with
      | array =>
          have hitems :
              itemChars format depth (stripItems items) = itemChars format depth items := by
            cases items with
            | none => rfl
            | some t => exact ihitems t rfl depth
          have hstrip : strip ⟨.array, optional, properties, items⟩ =
              ⟨.array, optional, [], stripItems items⟩ := rfl
          rw [hstrip, chars, chars, hitems]
      | object =>
          have hmembers : memberChars format (depth + 1) (stripProperties properties) =
              memberChars format (depth + 1) properties :=
            memberChars_strip fun p hp => ihproperties p hp (depth + 1)
          have hstrip : strip ⟨.object, optional, properties, items⟩ =
              ⟨.object, optional, stripProperties properties, none⟩ := rfl
          rw [hstrip, chars, chars, hmembers]
      | string | number | boolean | null | any => rfl

end Schema

namespace Walk

open Schema (stripItems stripProperties)

/-! ## Stripped states -/

/-- A frame with stripped trees. -/
def Frame.strip : Frame → Frame
  | .array items index => .array (stripItems items) index
  | .object properties seen name => .object (stripProperties properties) seen name

/-- A task with stripped trees. -/
def Task.strip : Task → Task
  | .value node => .value node.strip
  | .skip purpose t => .skip purpose t
  | .word node found due => .word node.strip found due
  | .number node t => .number node.strip t
  | .string node t => .string node.strip t
  | .ended => .ended
  | .firstItem items => .firstItem (stripItems items)
  | .nextItem items index => .nextItem (stripItems items) index
  | .firstKey properties => .firstKey (stripProperties properties)
  | .nextKey properties seen => .nextKey (stripProperties properties) seen
  | .key properties seen t => .key (stripProperties properties) seen t
  | .colon properties seen name node => .colon (stripProperties properties) seen name node.strip

/-- A state with stripped trees. -/
def State.strip (s : State) : State := ⟨s.outer.map Frame.strip, s.task.strip⟩

/-- A reply with stripped trees. -/
def Reply.strip : Reply → Reply
  | .more s => .more s.strip
  | reply => reply

theorem location_strip (outer : List Frame) :
    location (outer.map Frame.strip) = location outer := by
  have hsegment : Frame.segment ∘ Frame.strip = Frame.segment := by
    funext frame
    cases frame <;> rfl
  rw [location, location, List.map_map, hsegment]

theorem endingAround_strip (outer : List Frame) :
    endingAround (outer.map Frame.strip) = endingAround outer := by
  match outer with
  | [] | .array .. :: _ | .object .. :: _ => rfl

theorem finishEnded_strip (outer : List Frame) (p : Position) :
    finishEnded (outer.map Frame.strip) p = finishEnded outer p := by
  match outer with
  | [] | .array .. :: _ | .object .. :: _ => rfl

theorem missing?_strip (properties : List (String × Schema)) (seen : List String) :
    missing? (stripProperties properties) seen = missing? properties seen := by
  have hrequired : (fun p : String × Schema => !p.2.optional && !seen.contains p.1) ∘
      (fun p : String × Schema => (p.1, p.2.strip)) =
        fun p => !p.2.optional && !seen.contains p.1 := by
    funext p
    simp only [Function.comp_apply, Schema.optional_strip]
  rw [missing?, missing?, Schema.stripProperties_eq_map, List.find?_map, hrequired,
    Option.map_map]
  rfl

/-! ## Steps from stripped states -/

theorem closeObject_strip (outer : List Frame) (properties : List (String × Schema))
    (seen : List String) :
    closeObject (outer.map Frame.strip) (stripProperties properties) seen =
      (closeObject outer properties seen).strip := by
  rw [closeObject, closeObject, missing?_strip, location_strip]
  cases missing? properties seen <;> rfl

theorem stepEnded_strip (outer : List Frame) (p : Position) (b : UInt8) :
    stepEnded (outer.map Frame.strip) p b = (stepEnded outer p b).strip := by
  unfold stepEnded
  split
  · rfl
  · match outer with
    | [] => rfl
    | .array items index :: outer =>
        simp only [List.map_cons, Frame.strip]
        split
        · rfl
        · split <;> rfl
    | .object properties seen name :: outer =>
        simp only [List.map_cons, Frame.strip]
        split
        · exact closeObject_strip outer properties (name :: seen)
        · split <;> rfl

theorem judge_strip (outer : List Frame) (purpose : Purpose) :
    judge (outer.map Frame.strip) purpose = judge outer purpose := by
  cases purpose with
  | ignore => rfl
  | untypedItem => simp only [judge, ← List.map_tail, location_strip, endingAround_strip]
  | scalar kind optional first watch =>
      simp only [judge, location_strip, endingAround_strip]

theorem endSkip_strip (outer : List Frame) (purpose : Purpose) (taken : Bool) (p : Position)
    (b : UInt8) :
    endSkip (outer.map Frame.strip) purpose taken p b =
      (endSkip outer purpose taken p b).strip := by
  rw [endSkip, endSkip, judge_strip]
  match judge outer purpose, taken with
  | .error _, _ | .ok (some _), _ => rfl
  | .ok none, true => rfl
  | .ok none, false => exact stepEnded_strip outer p b

theorem stepSkip_strip (outer : List Frame) (purpose : Purpose) (t : Json.Skip) (p : Position)
    (b : UInt8) :
    stepSkip (outer.map Frame.strip) purpose t p b = (stepSkip outer purpose t p b).strip := by
  rw [stepSkip, stepSkip]
  cases t.step b with
  | more t => rfl
  | done _ => exact endSkip_strip outer _ true p b
  | stop _ => exact endSkip_strip outer _ false p b
  | fail fault side => rfl

theorem misplaced_strip (outer : List Frame) (node : Schema) (found : Kind) :
    misplaced (outer.map Frame.strip) node.strip found = misplaced outer node found := by
  rw [misplaced, misplaced, location_strip, Schema.kind_strip]

theorem beginVisit_strip (outer : List Frame) (node : Schema) (p : Position) (b : UInt8) :
    beginVisit (outer.map Frame.strip) node.strip p b = (beginVisit outer node p b).strip := by
  rw [beginVisit, beginVisit]
  split
  · rfl
  · cases Json.Word.ofFirst? b with
    | some due => rfl
    | none =>
        cases Json.Number.ofFirst? b with
        | some t => rfl
        | none =>
            cases Container.ofOpening? b with
            | none => rfl
            | some container =>
                simp only [List.length_map, Schema.kind_strip, location_strip]
                split
                · rfl
                · cases container <;> cases hk : node.kind <;>
                    simp only [Schema.items_strip, Schema.properties_strip, hk] <;> rfl

theorem beginValue_strip (outer : List Frame) (node : Schema) (p : Position) (b : UInt8) :
    beginValue (outer.map Frame.strip) node.strip p b = (beginValue outer node p b).strip := by
  rw [beginValue, beginValue, Schema.kind_strip, Schema.optional_strip]
  cases node.kind with
  | any => exact stepSkip_strip outer .ignore .start p b
  | object | array => exact beginVisit_strip outer node p b
  | string | number | boolean | null => exact stepSkip_strip outer _ .start p b

theorem refuses_strip (mode : Mode) (node : Schema) :
    refuses mode node.strip = refuses mode node := by
  rw [refuses, refuses, Schema.kind_strip]

theorem beginItem_strip (mode : Mode) (outer : List Frame) (items : Option Schema) (index : Nat)
    (p : Position) (b : UInt8) :
    beginItem mode (outer.map Frame.strip) (stripItems items) index p b =
      (beginItem mode outer items index p b).strip := by
  have hinner : .array (stripItems items) index :: outer.map Frame.strip =
      (Frame.array items index :: outer).map Frame.strip := rfl
  unfold beginItem
  simp only [hinner]
  cases items with
  | none => exact stepSkip_strip _ .untypedItem .start p b
  | some node =>
      simp only [stripItems, refuses_strip, location_strip, endingAround_strip]
      by_cases hr : refuses mode node = true
      · rw [if_pos hr, if_pos hr]
        rfl
      · rw [if_neg hr, if_neg hr]
        exact beginValue_strip _ node p b

theorem endKey_strip (mode : Mode) (outer : List Frame) (properties : List (String × Schema))
    (seen : List String) (decoded : List UInt8) (p : Position) :
    endKey mode (outer.map Frame.strip) (stripProperties properties) seen decoded p =
      (endKey mode outer properties seen decoded p).strip := by
  rw [endKey, endKey]
  cases Json.Literal.text decoded p with
  | error e => rfl
  | ok name =>
      simp only [Schema.find?_stripProperties, location_strip]
      cases NameMap.find? name properties with
      | some node => rfl
      | none => cases mode <;> rfl

theorem beginKey_strip (outer : List Frame) (properties : List (String × Schema))
    (seen : List String) (p : Position) (b : UInt8) :
    beginKey (outer.map Frame.strip) (stripProperties properties) seen p b =
      (beginKey outer properties seen p b).strip := by
  rw [beginKey, beginKey]
  split <;> rfl

/-- A step from the stripped state is the stripped reply. -/
theorem step_strip (mode : Mode) (s : State) (p : Position) (b : UInt8) :
    step mode s.strip p b = (step mode s p b).strip := by
  match s with
  | ⟨outer, .value node⟩ =>
      simp only [step, State.strip, Task.strip]
      split
      · rfl
      · exact beginValue_strip outer node p b
  | ⟨outer, .skip purpose t⟩ => exact stepSkip_strip outer purpose t p b
  | ⟨outer, .word node found due⟩ =>
      simp only [step, State.strip, Task.strip, misplaced_strip]
      cases Json.Word.step due b <;> rfl
  | ⟨outer, .number node t⟩ =>
      simp only [step, State.strip, Task.strip, misplaced_strip]
      cases Json.Number.step t b <;> rfl
  | ⟨outer, .string node t⟩ =>
      simp only [step, State.strip, Task.strip, misplaced_strip]
      cases t.step b with
      | more t => rfl
      | done decoded | stop decoded =>
          simp only
          cases Json.Literal.text decoded (p.after b) <;> rfl
      | fail fault side => rfl
  | ⟨outer, .ended⟩ => exact stepEnded_strip outer p b
  | ⟨outer, .firstItem items⟩ =>
      simp only [step, State.strip, Task.strip]
      split
      · rfl
      · split
        · rfl
        · exact beginItem_strip mode outer items 0 p b
  | ⟨outer, .nextItem items index⟩ =>
      simp only [step, State.strip, Task.strip]
      split
      · rfl
      · split
        · rfl
        · exact beginItem_strip mode outer items index p b
  | ⟨outer, .firstKey properties⟩ =>
      simp only [step, State.strip, Task.strip]
      split
      · rfl
      · split
        · exact closeObject_strip outer properties []
        · exact beginKey_strip outer properties [] p b
  | ⟨outer, .nextKey properties seen⟩ =>
      simp only [step, State.strip, Task.strip]
      split
      · rfl
      · split
        · rfl
        · exact beginKey_strip outer properties seen p b
  | ⟨outer, .key properties seen t⟩ =>
      simp only [step, State.strip, Task.strip]
      cases t.step b with
      | more t => rfl
      | done decoded | stop decoded =>
          exact endKey_strip mode outer properties seen decoded (p.after b)
      | fail fault side => rfl
  | ⟨outer, .colon properties seen name node⟩ =>
      have hinner : .object (stripProperties properties) seen name :: outer.map Frame.strip =
          (Frame.object properties seen name :: outer).map Frame.strip := rfl
      simp only [step, State.strip, Task.strip, hinner, refuses_strip, location_strip,
        endingAround_strip]
      split
      · rfl
      · split
        · split <;> rfl
        · rfl

/-! ## Runs from stripped states -/

/-- The document ends alike in the stripped state. -/
theorem finish_strip (s : State) (p : Position) : finish s.strip p = finish s p := by
  match s with
  | ⟨outer, .value _⟩ | ⟨outer, .word ..⟩ | ⟨outer, .string ..⟩ | ⟨outer, .firstItem _⟩
  | ⟨outer, .nextItem ..⟩ | ⟨outer, .firstKey _⟩ | ⟨outer, .nextKey ..⟩ | ⟨outer, .key ..⟩
  | ⟨outer, .colon ..⟩ => rfl
  | ⟨outer, .skip purpose t⟩ =>
      simp only [finish, State.strip, Task.strip, judge_strip, finishEnded_strip]
  | ⟨outer, .number node t⟩ =>
      simp only [finish, State.strip, Task.strip, misplaced_strip]
  | ⟨outer, .ended⟩ => exact finishEnded_strip outer p

/-- The walk gives the same result from the stripped state. -/
theorem run_strip (mode : Mode) (s : State) (p : Position) (bytes : List UInt8) :
    run mode s.strip p bytes = run mode s p bytes := by
  induction bytes generalizing s p with
  | nil => exact finish_strip s p
  | cons b bytes ih =>
      rw [run, run, step_strip]
      cases step mode s p b with
      | more s => exact ih s (p.after b)
      | fault _ _ | breach _ _ | trailing => rfl

end Walk

theorem check_strip (t : Schema) (document : List UInt8) (mode : Mode) :
    check t.strip document mode = check t document mode := by
  have hrun : Walk.run mode ⟨[], .value t.strip⟩ .start document =
      Walk.run mode ⟨[], .value t⟩ .start document :=
    Walk.run_strip mode ⟨[], .value t⟩ .start document
  simp only [check, Walk.refuses_strip, Schema.optional_strip, hrun]

/-- A tree and what is left of it without the parts that are not used give the same result
on every document and have the same texts.  So what is read from the text of a printable
tree gives the same results as the tree. -/
theorem strip_indistinguishable (t : Schema) :
    (∀ document mode, check t document mode = check t.strip document mode) ∧
      (∀ format : Format, t.render format = t.strip.render format) ∧
      (t.Printable → t.Ordered → ∀ format, ∃ t', parse (t.render format) = .ok t' ∧
        ∀ document mode, check t' document mode = check t document mode) := by
  have hcheck : ∀ document mode, check t.strip document mode = check t document mode :=
    check_strip t
  refine ⟨fun document mode => (hcheck document mode).symm, fun format => ?_, ?_⟩
  · rw [Schema.render, Schema.render, Schema.chars_strip]
  · intro hprintable hordered format
    have hback := Parse.readsBack_of_named format hprintable.named hordered
    exact ⟨t.strip, Parse.parse_of_readsBack hback hprintable.levels_le, hcheck⟩

/-- An array of strings.  The node of the strings has a property, whose name is none. -/
def overloadedItem : Schema :=
  .array { kind := .string, properties := [("a b", .number)] }

theorem strip_indistinguishable_overloadedItem :
    (overloadedItem.Printable ∧ overloadedItem.Ordered ∧ overloadedItem.strip ≠ overloadedItem) ∧
      ∃ t', parse (overloadedItem.render .pretty) = .ok t' ∧
        ∀ document mode, check t' document mode = check overloadedItem document mode := by
  have hnamed : overloadedItem.Named := by
    refine .node nofun nofun fun _ t ht => ?_
    cases ht
    exact .node nofun nofun nofun
  have hordered : overloadedItem.Ordered := by
    refine .array (.of_parts (by decide) (List.forall_mem_singleton.mpr ?_) nofun)
    exact .ofKind .number
  have hprintable : overloadedItem.Printable := ⟨hnamed, by decide⟩
  exact ⟨⟨hprintable, hordered, by decide⟩,
    (strip_indistinguishable overloadedItem).2.2 hprintable hordered .pretty⟩

end Jstn
