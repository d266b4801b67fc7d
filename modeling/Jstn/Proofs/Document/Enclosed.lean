import Jstn.Document.Walk.Step

/-!
# Walks inside further containers

The innermost containers of a walk decide what a byte does, until the value that they are part
of has ended.  So a step inside frames `inner ++ outer` that goes on is the step inside `inner`
with `outer` around it (`within_step`), and a byte after the whole inner value is a byte after
an entry of `outer` (`Reply.under`).

The converse fails: a container that can be opened inside `inner` may be one too many inside
`inner ++ outer`.
-/

namespace Jstn

open Json (Position Skip)

namespace Walk

namespace Reply

/-- The reply of a walk that has further frames around it. -/
def under (outer : List Frame) (p : Position) (b : UInt8) : Reply → Reply
  | .more s => .more ⟨s.outer ++ outer, s.task⟩
  | .trailing => stepEnded outer p b
  | .fault cause position => .fault cause position
  | .breach found taken => .breach found taken

/-- A walk that goes on does so as the walk inside its innermost frames. -/
def Within (outer : List Frame) (p : Position) (b : UInt8) (whole inner : Reply) : Prop :=
  ∀ s, whole = .more s → inner.under outer p b = .more s

variable {outer : List Frame} {p : Position} {b : UInt8}

theorem Within.more (inner : List Frame) {task : Task} :
    Within outer p b (.more ⟨inner ++ outer, task⟩) (.more ⟨inner, task⟩) := fun _ h => h

theorem Within.fault {fault : Json.Fault} {position : Position} {r : Reply} :
    Within outer p b (.fault fault position) r := fun _ h => by cases h

theorem Within.breach {found : Breach} {taken : Bool} {r : Reply} :
    Within outer p b (.breach found taken) r := fun _ h => by cases h

theorem Within.ite {c : Prop} [Decidable c] {whole whole' inner inner' : Reply}
    (ht : Within outer p b whole inner) (he : Within outer p b whole' inner') :
    Within outer p b (if c then whole else whole') (if c then inner else inner') := by
  split
  next => exact ht
  next => exact he

end Reply

open Reply (Within)

variable {inner outer : List Frame} {p : Position} {b : UInt8}

theorem within_closeObject {properties : List (String × Schema)} {seen : List String} :
    Within outer p b (closeObject (inner ++ outer) properties seen)
      (closeObject inner properties seen) := by
  rw [closeObject, closeObject]
  cases missing? properties seen with
  | none => exact .more inner
  | some name => exact .breach

theorem within_stepEnded :
    Within outer p b (stepEnded (inner ++ outer) p b) (stepEnded inner p b) := by
  rw [stepEnded.eq_def inner]
  cases inner with
  | nil =>
      intro s h
      split
      next hb =>
        rw [List.nil_append, stepEnded.eq_def, if_pos hb] at h
        exact h
      next => exact h
  | cons frame inner =>
      rw [stepEnded.eq_def]
      refine .ite (.more (frame :: inner)) ?_
      cases frame with
      | array items index =>
          exact .ite (.more inner) (.ite (.more inner) .fault)
      | object properties seen name =>
          exact .ite within_closeObject (.ite (.more inner) .fault)

/-- A skipped value that is fine is so wherever it stands. -/
theorem judge_eq_none {purpose : Purpose} (h : judge outer purpose = .ok none)
    (inner : List Frame) : judge inner purpose = .ok none := by
  cases purpose with
  | ignore => rfl
  | untypedItem => cases h
  | scalar kind optional first watch =>
      cases watch with
      | broken position => cases h
      | sound s lead =>
          simp only [judge, Except.ok.injEq, Option.map_eq_none_iff] at h ⊢
          exact h

theorem within_endSkip {purpose : Purpose} {taken : Bool} :
    Within outer p b (endSkip (inner ++ outer) purpose taken p b)
      (endSkip inner purpose taken p b) := by
  rw [endSkip, endSkip]
  split
  next => exact .fault
  next => exact .breach
  next hj =>
    rw [judge_eq_none hj inner]
    exact .ite (.more inner) within_stepEnded

theorem within_stepSkip (inner : List Frame) {purpose : Purpose} {k : Skip} :
    Within outer p b (stepSkip (inner ++ outer) purpose k p b) (stepSkip inner purpose k p b) := by
  rw [stepSkip, stepSkip]
  cases k.step b with
  | more k' => exact .more inner
  | done _ | stop _ => exact within_endSkip
  | fail fault side => exact .fault

theorem within_beginVisit {node : Schema} :
    Within outer p b (beginVisit (inner ++ outer) node p b) (beginVisit inner node p b) := by
  rw [beginVisit, beginVisit]
  refine .ite (.more inner) ?_
  split
  next => exact .more inner
  next => exact .more inner
  next container _ _ _ =>
    split
    next => exact .fault
    next hopen =>
      have hinner : ¬maxOpen ≤ inner.length := by
        rw [List.length_append] at hopen
        omega
      rw [if_neg hinner]
      split
      next => exact .more inner
      next => exact .more inner
      next => exact .breach
      next => exact .breach
  next => exact .fault

theorem within_beginValue (inner : List Frame) {node : Schema} :
    Within outer p b (beginValue (inner ++ outer) node p b) (beginValue inner node p b) := by
  rw [beginValue, beginValue]
  cases node.kind with
  | any | string | number | boolean | null => exact within_stepSkip inner
  | object | array => exact within_beginVisit

theorem within_beginItem {mode : Mode} {items : Option Schema} {index : Nat} :
    Within outer p b (beginItem mode (inner ++ outer) items index p b)
      (beginItem mode inner items index p b) := by
  cases items with
  | none => exact within_stepSkip (.array none index :: inner)
  | some node =>
      exact .ite .breach (within_beginValue (.array (some node) index :: inner))

theorem within_beginKey {properties : List (String × Schema)} {seen : List String} :
    Within outer p b (beginKey (inner ++ outer) properties seen p b)
      (beginKey inner properties seen p b) :=
  .ite (.more inner) .fault

theorem within_endKey {mode : Mode} {properties : List (String × Schema)} {seen : List String}
    {decoded : List UInt8} {q : Position} :
    Within outer p b (endKey mode (inner ++ outer) properties seen decoded q)
      (endKey mode inner properties seen decoded q) := by
  unfold endKey
  split
  next => exact .fault
  next =>
    split
    next => exact .more inner
    next => exact .more inner
    next => exact .breach

/-- A step that goes on is the step of the innermost frames with the others around it. -/
theorem within_step {mode : Mode} {task : Task} :
    Within outer p b (step mode ⟨inner ++ outer, task⟩ p b) (step mode ⟨inner, task⟩ p b) := by
  cases task with
  | value node => exact .ite (.more inner) (within_beginValue inner)
  | skip purpose k => exact within_stepSkip inner
  | word node found due =>
      simp only [step]
      cases Json.Word.step due b with
      | more due => exact .more inner
      | done _ | stop _ => exact .breach
      | fail fault side => exact .fault
  | number node t =>
      simp only [step]
      cases Json.Number.step t b with
      | more t => exact .more inner
      | done _ | stop _ => exact .breach
      | fail fault side => exact .fault
  | string node t =>
      simp only [step]
      cases t.step b with
      | more t => exact .more inner
      | done decoded | stop decoded =>
          simp only
          split
          next => exact .fault
          next => exact .breach
      | fail fault side => exact .fault
  | ended => exact within_stepEnded
  | firstItem items =>
      exact .ite (.more inner) (.ite (.more inner) within_beginItem)
  | nextItem items index =>
      exact .ite (.more inner) (.ite .fault within_beginItem)
  | firstKey properties =>
      exact .ite (.more inner) (.ite within_closeObject within_beginKey)
  | nextKey properties seen =>
      exact .ite (.more inner) (.ite .fault within_beginKey)
  | key properties seen t =>
      simp only [step]
      cases t.step b with
      | more t => exact .more inner
      | done decoded | stop decoded => exact within_endKey
      | fail fault side => exact .fault
  | colon properties seen name node =>
      refine .ite (.more inner) (.ite ?_ .fault)
      exact .ite .breach (.more (.object properties seen name :: inner))

end Walk

end Jstn
