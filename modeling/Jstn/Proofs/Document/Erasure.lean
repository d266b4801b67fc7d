import Jstn.Document.Check
import Jstn.Proofs.Json.SkipSoundness

/-!
# Walks without their schema

A walk checks the syntax of a document the way skipping does.  `erase` forgets
the schema nodes, names and indices of a state and keeps a skip, or nothing once
the root value has ended.  While the walk goes on, the skip takes the same bytes
(`follows_step`).  What can come of a walk at the end of the text is said once
(`finishes`), and where it accepts there the skip has come to its end too
(`skipFrom_of_finish`).
-/

namespace Jstn

open Json (Byte.isBlank Byte.quote Container Cursor Fault Position Skip)

/-- The skipping of a literal that is being decoded. -/
def Json.Literal.Point.erase : Json.Literal.Point → Json.Literal.Skip
  | .plain | .pairBackslash _ => .plain
  | .escape | .pairLetter _ => .escape
  | .hex _ left value => .hex left value.isSome

theorem Json.Literal.Decode.closeHex_more {s s' : Json.Literal.Decode} {high value : Option Nat}
    (h : s.closeHex high value = .more s') :
    value.isSome = true ∧ s'.point.erase = .plain := by
  simp only [closeHex] at h
  split at h
  · cases h
  · split at h
    · cases h
    · split at h
      · obtain rfl := Json.Reply.more.inj h
        exact ⟨rfl, rfl⟩
      · obtain rfl := Json.Reply.more.inj h
        exact ⟨rfl, rfl⟩
  · split at h
    · obtain rfl := Json.Reply.more.inj h
      exact ⟨rfl, rfl⟩
    · cases h

/-- While a literal is decoded its skipping goes on too. -/
theorem Json.Literal.Decode.erase_step {s s' : Json.Literal.Decode} {b : UInt8}
    (h : s.step b = .more s') : s.point.erase.step b = .more s'.point.erase := by
  match s with
  | ⟨acc, .plain⟩ =>
      simp only [step, push] at h
      split at h
      next => cases h
      next hq =>
        split at h
        next hb =>
          cases h
          rw [hb]
          rfl
        next hb =>
          split at h
          next => cases h
          next hc =>
            cases h
            simp [Json.Literal.Point.erase, Json.Literal.Skip.step, hq, hb, hc]
  | ⟨acc, .escape⟩ =>
      simp only [step, push] at h
      split at h
      next c hc =>
        cases h
        simp [Json.Literal.Point.erase, Json.Literal.Skip.step, hc]
      next =>
        split at h
        next hu =>
          cases h
          rw [hu]
          rfl
        next => cases h
  | ⟨acc, .hex high (left + 1) value⟩ =>
      cases h
      cases value <;> cases hd : Json.Byte.hexValue? b <;>
        simp [Json.Literal.Point.erase, Json.Literal.Skip.step, hd]
  | ⟨acc, .hex high 0 value⟩ =>
      obtain ⟨hv, hp⟩ := closeHex_more h
      have hsound : (value.isSome && (Json.Byte.hexValue? b).isSome) = true := by
        cases value <;> simp_all
      rw [hp, Json.Literal.Point.erase, Json.Literal.Skip.step]
      simp only [hsound, if_true]
  | ⟨acc, .pairBackslash high⟩ =>
      simp only [step] at h
      split at h
      next hb =>
        cases h
        rw [hb]
        rfl
      next => cases h
  | ⟨acc, .pairLetter high⟩ =>
      simp only [step] at h
      split at h
      next hu =>
        cases h
        rw [hu]
        rfl
      next => cases h

theorem Json.Literal.Decode.erase_done {s : Json.Literal.Decode} {b : UInt8} {bytes : List UInt8}
    (h : s.step b = .done bytes) : s.point.erase.step b = .done () := by
  obtain ⟨hp, rfl, -⟩ := step_done h
  rw [hp]
  rfl

namespace Walk

/-- The containers of frames. -/
def containers (outer : List Frame) : List Container := outer.map Frame.container

/-- The skip that a walk amounts to, or nothing after the root value. -/
def erase (s : State) : Option Skip :=
  let outer := containers s.outer
  match s.task with
  | .value _ => some ⟨outer, .value⟩
  | .skip _ k => some ⟨k.outer ++ outer, k.point⟩
  | .word _ _ due => some ⟨outer, .word due⟩
  | .number _ t => some ⟨outer, .number t.phase⟩
  | .string _ t => some ⟨outer, .string t.point.erase⟩
  | .ended => Skip.ended? outer
  | .firstItem _ => some ⟨outer, .first .array⟩
  | .nextItem .. => some ⟨.array :: outer, .value⟩
  | .firstKey _ => some ⟨outer, .first .object⟩
  | .nextKey .. => some ⟨outer, .key⟩
  | .key _ _ t => some ⟨outer, .keyText t.point.erase⟩
  | .colon .. => some ⟨outer, .colon⟩

/-- What a byte does to the skip of a walk that goes on. -/
def Follows (k k' : Option Skip) (b : UInt8) : Prop :=
  match k, k' with
  | some k, some k' => k.step b = .more k'
  | some k, none => k.step b = .done () ∨ (k.step b = .stop () ∧ Byte.isBlank b = true)
  | none, some _ => False
  | none, none => Byte.isBlank b = true

/-- The byte ends a value. -/
theorem follows_close {k : Skip} {outer : List Container} {b : UInt8}
    (h : k.step b = Skip.closeOn outer) : Follows (some k) (Skip.ended? outer) b := by
  cases outer with
  | nil => exact Or.inl h
  | cons c outer => exact h

/-- The byte comes after a value. -/
theorem follows_ended {k : Skip} {outer : List Frame} {p : Position} {b : UInt8} {s : State}
    (hk : k.step b = Skip.stepEnded (containers outer) b) (h : stepEnded outer p b = .more s) :
    Follows (some k) (erase s) b := by
  unfold stepEnded at h
  split at h
  next hb =>
    cases h
    cases outer with
    | nil => exact Or.inr ⟨hk, hb⟩
    | cons frame outer =>
        have hblank : Skip.step ⟨containers outer, .after frame.container⟩ b = _ :=
          Skip.TakesBlanks.step_blank (containers outer) b hb
        exact hk.trans hblank
  next hb =>
    split at h
    next => cases h
    next items index outer =>
      simp only [containers, List.map_cons, Frame.container, Skip.stepEnded, Skip.stepAfter, hb,
        Bool.false_eq_true, if_false] at hk
      split at h
      next hc =>
        cases h
        rw [if_pos hc] at hk
        exact follows_close hk
      next hc =>
        rw [if_neg hc] at hk
        split at h
        next hcomma =>
          cases h
          rw [if_pos hcomma] at hk
          exact hk
        next => cases h
    next properties seen name outer =>
      simp only [containers, List.map_cons, Frame.container, Skip.stepEnded, Skip.stepAfter, hb,
        Bool.false_eq_true, if_false] at hk
      split at h
      next hc =>
        rw [if_pos hc] at hk
        rw [closeObject] at h
        split at h
        · cases h
        · cases h
          exact follows_close hk
      next hc =>
        rw [if_neg hc] at hk
        split at h
        next hcomma =>
          cases h
          rw [if_pos hcomma] at hk
          exact hk
        next => cases h

/-- A byte of a value that is skipped. -/
theorem follows_skip {outer : List Frame} {purpose : Purpose} {k : Skip} {p : Position}
    {b : UInt8} {s : State} (h : stepSkip outer purpose k p b = .more s) :
    Follows (some ⟨k.outer ++ containers outer, k.point⟩) (erase s) b := by
  have hstep := Skip.step_append k.outer (containers outer) k.point b
  rw [stepSkip] at h
  split at h
  next k' hk =>
    cases h
    rw [show k.step b = _ from hk] at hstep
    exact hstep
  next hk =>
    rw [show k.step b = _ from hk] at hstep
    rw [endSkip] at h
    split at h
    · cases h
    · cases h
    · cases h
      exact follows_close hstep
  next hk =>
    rw [show k.step b = _ from hk] at hstep
    rw [endSkip] at h
    split at h
    · cases h
    · cases h
    · exact follows_ended hstep h
  next => cases h

theorem ofFirst?_of_opening {b : UInt8} {c : Container} (h : Container.ofOpening? b = some c) :
    Json.Number.Phase.ofFirst? b = none := by
  rw [Container.ofOpening?] at h
  split at h
  next hb =>
    rw [hb]
    rfl
  next =>
    split at h
    next hb =>
      rw [hb]
      rfl
    next => cases h

theorem phase_of_ofFirst? {b : UInt8} {s : Json.Number.State}
    (h : Json.Number.ofFirst? b = some s) : Json.Number.Phase.ofFirst? b = some s.phase := by
  rw [Json.Number.ofFirst?] at h
  obtain ⟨phase, hp, h⟩ := Option.bind_eq_some_iff.mp h
  obtain ⟨measure, -, rfl⟩ := Option.map_eq_some_iff.mp h
  exact hp

/-- The first byte of a value. -/
theorem follows_value {outer : List Frame} {node : Schema} {p : Position} {b : UInt8} {s : State}
    (hb : Byte.isBlank b = false) (h : beginValue outer node p b = .more s) :
    Follows (some ⟨containers outer, .value⟩) (erase s) b := by
  have hstep : Skip.step ⟨containers outer, .value⟩ b
      = Skip.stepValue (containers outer) b := rfl
  have hvisit : beginVisit outer node p b = .more s →
      Follows (some ⟨containers outer, .value⟩) (erase s) b := by
    intro h
    rw [Skip.stepValue, if_neg (by simp [hb])] at hstep
    rw [beginVisit] at h
    by_cases hq : b = Byte.quote
    · rw [if_pos hq] at h hstep
      cases h
      exact hstep
    · rw [if_neg hq] at h hstep
      split at h
      next due _ hd =>
        cases h
        rw [hd] at hstep
        exact hstep
      next t _ hw ht =>
        cases h
        rw [hw, phase_of_ofFirst? ht] at hstep
        exact hstep
      next c hw _ hc =>
        rw [hw, ofFirst?_of_opening hc, hc] at hstep
        split at h
        · cases h
        · split at h
          · cases h
            exact hstep
          · cases h
            exact hstep
          · cases h
          · cases h
      next => cases h
  rw [beginValue] at h
  split at h
  · exact follows_skip h
  · exact hvisit h
  · exact hvisit h
  · exact follows_skip h

/-- The first byte of an item. -/
theorem follows_item {mode : Mode} {outer : List Frame} {items : Option Schema} {index : Nat}
    {p : Position} {b : UInt8} {s : State} (hb : Byte.isBlank b = false)
    (h : beginItem mode outer items index p b = .more s) :
    Follows (some ⟨.array :: containers outer, .value⟩) (erase s) b := by
  unfold beginItem at h
  cases items with
  | none => exact follows_skip h
  | some node =>
      simp only at h
      split at h
      · cases h
      · exact follows_value hb h

/-- The first byte of a key. -/
theorem follows_key {outer : List Frame} {properties : List (String × Schema)}
    {seen : List String} {p : Position} {b : UInt8} {s : State}
    (h : beginKey outer properties seen p b = .more s) :
    Follows (some ⟨containers outer, .key⟩) (erase s) b := by
  rw [beginKey] at h
  split at h
  next hq =>
    cases h
    rw [hq]
    rfl
  next => cases h

theorem phase_of_step {t t' : Json.Number.State} {b : UInt8}
    (h : Json.Number.step t b = .more t') : t.phase.step b = .more t'.phase := by
  rw [Json.Number.step] at h
  split at h
  next phase hp =>
    split at h
    · cases h
      exact hp
    · cases h
  next => cases h
  next => split at h <;> cases h
  next => split at h <;> cases h

theorem follows_congr {k k' : Skip} {next : Option Skip} {b : UInt8}
    (h : k.step b = k'.step b) (hf : Follows (some k') next b) : Follows (some k) next b := by
  cases next with
  | none => exact hf.imp h.trans (And.imp_left h.trans)
  | some next => exact h.trans hf

/-- At most places a blank changes nothing, and it does not for the skip. -/
theorem follows_blank {s : State} {k : Skip} {b : UInt8} [ht : Skip.TakesBlanks k.point]
    (hk : erase s = some k) (hb : Byte.isBlank b = true) : Follows (erase s) (erase s) b := by
  rw [hk]
  exact ht.step_blank k.outer b hb

section

variable {mode : Mode} {outer : List Frame} {p : Position} {b : UInt8} {s : State}

theorem follows_firstItem {items : Option Schema}
    (h : step mode ⟨outer, .firstItem items⟩ p b = .more s) :
    Follows (erase ⟨outer, .firstItem items⟩) (erase s) b := by
  simp only [step] at h
  split at h
  next hb =>
    cases h
    exact follows_blank rfl hb
  next hb =>
    split at h
    next hc =>
      cases h
      refine follows_close ?_
      rw [hc]
      rfl
    next hc =>
      refine follows_congr ?_ (follows_item (by simpa using hb) h)
      simp [Skip.step, Skip.stepFirst, hb, hc]

theorem follows_nextItem {items : Option Schema} {index : Nat}
    (h : step mode ⟨outer, .nextItem items index⟩ p b = .more s) :
    Follows (erase ⟨outer, .nextItem items index⟩) (erase s) b := by
  simp only [step] at h
  split at h
  next hb =>
    cases h
    exact follows_blank rfl hb
  next hb =>
    split at h
    · cases h
    · exact follows_item (by simpa using hb) h

theorem follows_firstKey {properties : List (String × Schema)}
    (h : step mode ⟨outer, .firstKey properties⟩ p b = .more s) :
    Follows (erase ⟨outer, .firstKey properties⟩) (erase s) b := by
  simp only [step] at h
  split at h
  next hb =>
    cases h
    exact follows_blank rfl hb
  next hb =>
    split at h
    next hc =>
      rw [closeObject] at h
      split at h
      · cases h
      · cases h
        refine follows_close ?_
        rw [hc]
        rfl
    next hc =>
      refine follows_congr ?_ (follows_key h)
      simp [Skip.step, Skip.stepFirst, hb, hc]

theorem follows_nextKey {properties : List (String × Schema)} {seen : List String}
    (h : step mode ⟨outer, .nextKey properties seen⟩ p b = .more s) :
    Follows (erase ⟨outer, .nextKey properties seen⟩) (erase s) b := by
  simp only [step] at h
  split at h
  next hb =>
    cases h
    exact follows_blank rfl hb
  next =>
    split at h
    · cases h
    · exact follows_key h

/-- After a key that is accepted its colon is due. -/
theorem colon_of_endKey {properties : List (String × Schema)} {seen : List String}
    {decoded : List UInt8} (h : endKey mode outer properties seen decoded p = .more s) :
    ∃ name node, s = ⟨outer, .colon properties seen name node⟩ := by
  unfold endKey at h
  split at h
  · cases h
  · split at h
    · cases h
      exact ⟨_, _, rfl⟩
    · cases h
      exact ⟨_, _, rfl⟩
    · cases h

theorem follows_keyText {properties : List (String × Schema)} {seen : List String}
    {t : Json.Literal.Decode} (h : step mode ⟨outer, .key properties seen t⟩ p b = .more s) :
    Follows (erase ⟨outer, .key properties seen t⟩) (erase s) b := by
  simp only [step] at h
  split at h
  next t' ht =>
    cases h
    simp [erase, Follows, Skip.step, t.erase_step ht]
  next decoded ht =>
    obtain ⟨name, node, rfl⟩ := colon_of_endKey h
    simp [erase, Follows, Skip.step, t.erase_done ht]
  next decoded ht => exact absurd ht Json.Literal.Decode.step_ne_stop
  next => cases h

theorem follows_colon {properties : List (String × Schema)} {seen : List String} {name : String}
    {node : Schema} (h : step mode ⟨outer, .colon properties seen name node⟩ p b = .more s) :
    Follows (erase ⟨outer, .colon properties seen name node⟩) (erase s) b := by
  simp only [step] at h
  split at h
  next hb =>
    cases h
    exact follows_blank rfl hb
  next =>
    split at h
    next hc =>
      split at h
      · cases h
      · cases h
        rw [hc]
        rfl
    next => cases h

end

/-- A byte takes the skip along with the walk. -/
theorem follows_step {mode : Mode} {s s' : State} {p : Position} {b : UInt8}
    (h : step mode s p b = .more s') : Follows (erase s) (erase s') b := by
  match s with
  | ⟨outer, .value node⟩ =>
      simp only [step] at h
      split at h
      next hb =>
        cases h
        exact follows_blank rfl hb
      next hb => exact follows_value (by simpa using hb) h
  | ⟨outer, .skip purpose k⟩ => exact follows_skip h
  | ⟨outer, .word node found due⟩ =>
      simp only [step] at h
      split at h
      next due' hd =>
        cases h
        simp [erase, Follows, Skip.step, hd]
      all_goals cases h
  | ⟨outer, .number node t⟩ =>
      simp only [step] at h
      split at h
      next t' ht =>
        cases h
        simp [erase, Follows, Skip.step, phase_of_step ht]
      all_goals cases h
  | ⟨outer, .string node t⟩ =>
      simp only [step] at h
      split at h
      next t' ht =>
        cases h
        simp [erase, Follows, Skip.step, t.erase_step ht]
      next => split at h <;> cases h
      next => split at h <;> cases h
      next => cases h
  | ⟨[], .ended⟩ =>
      simp only [step, stepEnded] at h
      split at h
      next hb =>
        cases h
        exact hb
      next => cases h
  | ⟨frame :: outer, .ended⟩ => exact follows_ended rfl h
  | ⟨outer, .firstItem items⟩ => exact follows_firstItem h
  | ⟨outer, .nextItem items index⟩ => exact follows_nextItem h
  | ⟨outer, .firstKey properties⟩ => exact follows_firstKey h
  | ⟨outer, .nextKey properties seen⟩ => exact follows_nextKey h
  | ⟨outer, .key properties seen t⟩ => exact follows_keyText h
  | ⟨outer, .colon properties seen name node⟩ => exact follows_colon h

/-! ## The end of the text -/

/-- What comes of a walk at the end of the text. -/
inductive Finishes : State → Position → Except Rejection Unit → Prop
  /-- The root value has ended before. -/
  | ended {p : Position} : Finishes ⟨[], .ended⟩ p (.ok ())
  /-- The root value is skipped and ends with the text. -/
  | skipped {purpose : Purpose} {k : Skip} {p : Position} : k.finish = .ok () →
      judge [] purpose = .ok none → Finishes ⟨[], .skip purpose k⟩ p (.ok ())
  /-- A skipped value ends with the text and breaks a rule. -/
  | judged {outer : List Frame} {purpose : Purpose} {k : Skip} {p : Position} {breach : Breach} :
      judge outer purpose = .ok (some breach) →
      Finishes ⟨outer, .skip purpose k⟩ p (.error (breach.reject ⟨p, []⟩))
  /-- A number at a node that describes a container ends with the text. -/
  | misplaced {outer : List Frame} {node : Schema} {t : Json.Number.State} {p : Position} :
      Finishes ⟨outer, .number node t⟩ p
        (.error ((misplaced outer node .number).reject ⟨p, []⟩))
  /-- The text ends too early, or a value in it is not sound. -/
  | malformed {s : State} {p : Position} {fault : Fault} {position : Position} :
      Finishes s p (.error (.malformed fault position))

theorem finishes (s : State) (p : Position) : Finishes s p (finish s p) := by
  obtain ⟨outer, task⟩ := s
  cases task with
  | skip purpose k =>
      simp only [finish]
      cases hk : k.finish with
      | error fault => exact .malformed
      | ok _ =>
          simp only
          split
          next => exact .malformed
          next hj => exact .judged hj
          next hj =>
            cases outer with
            | nil => exact .skipped hk hj
            | cons frame outer => exact .malformed
  | number node t =>
      simp only [finish]
      cases Json.Number.finish t with
      | error fault => exact .malformed
      | ok _ => exact .misplaced
  | ended =>
      cases outer with
      | nil => exact .ended
      | cons frame outer => exact .malformed
  | value _ | word _ _ _ | string _ _ | firstItem _ | nextItem _ _ | firstKey _ | nextKey _ _
  | key _ _ _ | colon _ _ _ _ => exact .malformed

/-- The run of a skip, if there still is something to skip. -/
def skipFrom : Option Skip → Position → List UInt8 → Except (Fault × Position) Cursor
  | some k, p, bytes => k.runFrom p bytes
  | none, p, bytes => .ok ⟨p, bytes⟩

/-- Where a walk accepts, its skip has come to its end. -/
theorem skipFrom_of_finish {s : State} {p : Position} (h : finish s p = .ok ()) :
    skipFrom (erase s) p [] = .ok ⟨p, []⟩ := by
  have hf := finishes s p
  rw [h] at hf
  cases hf with
  | ended => rfl
  | @skipped purpose k _ hk _ =>
      rw [erase, containers, List.map_nil]
      simp only [skipFrom, List.append_nil, Skip.runFrom_nil]
      rw [show Skip.finish ⟨k.outer, k.point⟩ = .ok () from hk]

end Walk

end Jstn
