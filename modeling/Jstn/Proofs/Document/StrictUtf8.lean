import Jstn.Proofs.Document.Settling
import Jstn.Proofs.Json.SkipSoundness

/-!
# Documents that strict mode accepts are UTF-8

No walk decodes a document as a whole.  Yet a document that strict mode accepts is UTF-8
(`valid_of_strict_ok`), since such a walk takes every byte in one of three ways.  It is a
blank or punctuation, or it belongs to a scalar that is watched, or to a key that is decoded.
A key may be written with escapes, and what is decoded is UTF-8 only if the bytes between
the quotes are (`Json.Literal.valid_append_spells`).

Lenient mode does not give as much, since nothing is asked of the bytes of a value where any
may stand.

The proof follows the walk from token to token.  *Between* tokens blanks mean nothing, and
from there an accepted walk *advances* over some UTF-8 to where it is between tokens again
(`Walk.advances_of_run`).
-/

namespace Jstn

open Json (Blanks Byte.isBlank Byte.quote Byte.comma Byte.colon Container Cursor Fault Position
  Skip Text Watch)

namespace Walk

/-! ## Between tokens -/

/-- Blanks mean nothing, and a value that is due is not refused. -/
def Between (s : State) : Prop :=
  s.task.takesBlanks = true ∧
    match s.task with
    | .value node => refuses .strict node = false
    | _ => True

/-- The bytes begin with UTF-8 after which an accepted walk is between tokens. -/
def Advances (bytes : List UInt8) : Prop :=
  ∃ x rest s p, bytes = x ++ rest ∧ x ≠ [] ∧ Utf8.Valid x ∧ Between s ∧
    run .strict s p rest = .ok ()

variable {outer : List Frame} {s : State} {p : Position} {b : UInt8} {rest : List UInt8}

/-- The first byte of what an accepted walk takes. -/
theorem more_of_run {mode : Mode} (h : run mode s p (b :: rest) = .ok ()) :
    ∃ s', step mode s p b = .more s' ∧ run mode s' (p.after b) rest = .ok () := by
  rw [run] at h
  cases hs : step mode s p b with
  | more s' =>
      rw [hs] at h
      exact ⟨s', rfl, h⟩
  | fault _ _ | breach _ _ | trailing =>
      rw [hs] at h
      cases h

theorem advances_byte (hb : b.toNat < 0x80) (hs : Between s)
    (h : run .strict s p rest = .ok ()) : Advances (b :: rest) :=
  ⟨[b], rest, s, p, rfl, List.cons_ne_nil b [], Utf8.valid_ascii hb, hs, h⟩

/-! ## Values that are skipped -/

/-- What an accepted walk makes of a value that it skips. -/
theorem exists_settle_of_run {mode : Mode} {purpose : Purpose} (hb : Byte.isBlank b = false)
    (h : run mode ⟨outer, .skip purpose .start⟩ p (b :: rest) = .ok ()) :
    ∃ v x c, b :: rest = x ++ c.rest ∧ Text v x ∧
      settle mode outer (purpose.fedAll p x) c = .ok () := by
  obtain ⟨c, hc⟩ := exists_skip_of_run h
  obtain ⟨w, v, x, hx, hw, hv⟩ := Skip.exists_text_of_run hc
  cases w with
  | nil =>
      rw [List.nil_append] at hx
      rw [hx] at h hc
      rw [run_skip hc] at h
      exact ⟨v, x, c, hx, hv, h⟩
  | cons a w =>
      obtain ⟨rfl, -⟩ := List.cons.inj hx
      rw [(List.forall_mem_cons.mp hw).1] at hb
      cases hb

theorem advances_scalar {kind : Kind} {optional : Bool} {first : UInt8} {lead : Position}
    (hb : Byte.isBlank b = false)
    (h : run .strict ⟨outer, .skip (.scalar kind optional first (.sound .boundary lead)) .start⟩ p
      (b :: rest) = .ok ()) : Advances (b :: rest) := by
  obtain ⟨v, x, c, hx, hv, hsettle⟩ := exists_settle_of_run hb h
  obtain ⟨xs, a, hlast, -⟩ := Json.exists_last_of_text hv
  simp only [settle, Purpose.fedAll, judge] at hsettle
  cases hwatch : (Watch.sound .boundary lead).feedAll p x with
  | broken q =>
      simp only [hwatch] at hsettle
      cases hsettle
  | sound us lead' =>
      simp only [hwatch] at hsettle
      split at hsettle
      · cases hsettle
      · cases hsettle
      · refine ⟨x, c.rest, ⟨outer, .ended⟩, c.position, hx, ?_, ?_, ⟨rfl, trivial⟩, hsettle⟩
        · rw [hlast]
          exact List.concat_ne_nil a xs
        · exact Watch.valid_of_feedAll hv hwatch

/-- No walk accepts an item where none may stand. -/
theorem run_untypedItem_ne_ok {mode : Mode} (hb : Byte.isBlank b = false) :
    run mode ⟨outer, .skip .untypedItem .start⟩ p (b :: rest) ≠ .ok () := by
  intro h
  obtain ⟨v, x, c, -, -, hsettle⟩ := exists_settle_of_run hb h
  cases hsettle

/-! ## Values that are visited -/

theorem goOn_error_ne_ok {α : Type} {f : α → Cursor → Rejection}
    {r : Except (Fault × Position) (α × Cursor)} :
    goOn (fun a c => .error (f a c)) r ≠ .ok () := by
  cases r <;> exact nofun

theorem closing_ascii (k : Container) : k.closing.toNat < 0x80 := by
  cases k <;> decide

theorem opening_ascii {k : Container} (h : Container.ofOpening? b = some k) :
    b.toNat < 0x80 := by
  rw [Container.ofOpening?] at h
  split at h
  next hb =>
    rw [hb]
    decide
  next =>
    split at h
    next hb =>
      rw [hb]
      decide
    next => cases h

theorem advances_visit {node : Schema} (hk : node.kind = .array ∨ node.kind = .object)
    (hb : Byte.isBlank b = false) (h : run .strict ⟨outer, .value node⟩ p (b :: rest) = .ok ()) :
    Advances (b :: rest) := by
  obtain ⟨s', hstep, hrun⟩ := more_of_run h
  rw [step_visit hk hb, beginVisit] at hstep
  split at hstep
  next =>
    cases hstep
    rw [run_string] at hrun
    exact absurd hrun goOn_error_ne_ok
  next =>
    split at hstep
    next =>
      cases hstep
      rw [run_word] at hrun
      exact absurd hrun goOn_error_ne_ok
    next =>
      cases hstep
      rw [run_number] at hrun
      exact absurd hrun goOn_error_ne_ok
    next container hopening =>
      have hascii := opening_ascii hopening
      split at hstep
      · cases hstep
      · split at hstep
        · cases hstep
          refine advances_byte hascii ?_ hrun
          exact ⟨rfl, trivial⟩
        · cases hstep
          refine advances_byte hascii ?_ hrun
          exact ⟨rfl, trivial⟩
        · cases hstep
        · cases hstep
    next => cases hstep

/-! ## The step from token to token -/

/-- The first byte of a value. -/
theorem step_value {mode : Mode} (node : Schema) (hb : Byte.isBlank b = false) :
    step mode ⟨outer, .value node⟩ p b = beginValue outer node p b := by
  simp only [step, hb, Bool.false_eq_true, if_false]

theorem advances_value {node : Schema} (hm : refuses .strict node = false)
    (hb : Byte.isBlank b = false) (h : run .strict ⟨outer, .value node⟩ p (b :: rest) = .ok ()) :
    Advances (b :: rest) := by
  have hskip : ∀ purpose, step .strict ⟨outer, .value node⟩ p b
        = stepSkip outer purpose .start p b →
      run .strict ⟨outer, .skip purpose .start⟩ p (b :: rest) = .ok () := by
    intro purpose hstep
    rw [← h]
    exact (run_congr rest hstep).symm
  cases hk : node.kind with
  | array => exact advances_visit (Or.inl hk) hb h
  | object => exact advances_visit (Or.inr hk) hb h
  | any =>
      simp only [refuses, hk] at hm
      cases hm
  | string | number | boolean | null =>
      have hstep := @step_value outer p b .strict node hb
      simp only [beginValue, hk] at hstep
      exact advances_scalar hb (hskip _ hstep)

/-- A byte where an item is due. -/
theorem advances_item {items : Option Schema} {index : Nat} (hb : Byte.isBlank b = false)
    (hs : step .strict s p b = beginItem .strict outer items index p b)
    (h : run .strict s p (b :: rest) = .ok ()) : Advances (b :: rest) := by
  cases items with
  | none =>
      have hstep : step .strict s p b
          = step .strict ⟨.array none index :: outer, .skip .untypedItem .start⟩ p b := hs
      rw [run_congr rest hstep] at h
      exact absurd h (run_untypedItem_ne_ok hb)
  | some node =>
      cases hm : refuses .strict node with
      | true =>
          obtain ⟨s', hstep, -⟩ := more_of_run h
          simp only [hs, beginItem, hm, if_true] at hstep
          cases hstep
      | false =>
          have hstep : step .strict s p b
              = step .strict ⟨.array (some node) index :: outer, .value node⟩ p b := by
            rw [hs, step_value node hb]
            simp only [beginItem, hm, Bool.false_eq_true, if_false]
          rw [run_congr rest hstep] at h
          exact advances_value hm hb h

/-- A byte where a key is due. -/
theorem advances_key {properties : List (String × Schema)} {seen : List String}
    (hs : step .strict s p b = beginKey outer properties seen p b)
    (h : run .strict s p (b :: rest) = .ok ()) : Advances (b :: rest) := by
  obtain ⟨s', hstep, hrun⟩ := more_of_run h
  rw [hs, beginKey] at hstep
  split at hstep
  next hquote =>
    cases hstep
    rw [run_key] at hrun
    cases hread : Json.Literal.read ⟨p.after b, rest⟩ with
    | error e =>
        rw [hread] at hrun
        cases hrun
    | ok r =>
        obtain ⟨name, c⟩ := r
        obtain ⟨body, hx, hdenotes⟩ := Json.Literal.denotes_of_read hread
        have hspells := (hdenotes.2 name).mp rfl
        have hbody : Utf8.Valid ([] ++ body) :=
          (Json.Literal.valid_append_spells hspells).mpr ⟨name, rfl⟩
        simp only [hread, goOn, goOnKey] at hrun
        split at hrun
        next node hnode =>
          have hbetween : Between ⟨outer, .colon properties seen name node⟩ := ⟨rfl, trivial⟩
          refine ⟨Json.Literal.quoted body, c.rest, _, c.position, ?_, List.cons_ne_nil _ _, ?_,
            hbetween, hrun⟩
          · rw [hx, hquote]
            simp [Json.Literal.quoted]
          · rw [Json.Literal.quoted, Utf8.valid_cons_ascii (by decide),
              Utf8.valid_append_ascii (by decide)]
            exact ⟨hbody, Utf8.valid_nil⟩
        next => cases hrun
  next => cases hstep

theorem between_of_closeObject {properties : List (String × Schema)} {seen : List String}
    (h : closeObject outer properties seen = .more s) : Between s := by
  rw [closeObject] at h
  split at h
  · cases h
  · cases h
    exact ⟨rfl, trivial⟩

/-- A byte after a value. -/
theorem advances_ended (hb : Byte.isBlank b = false)
    (h : run .strict ⟨outer, .ended⟩ p (b :: rest) = .ok ()) : Advances (b :: rest) := by
  obtain ⟨s', hstep, hrun⟩ := more_of_run h
  have hcomma : Byte.comma.toNat < 0x80 := by decide
  simp only [step, stepEnded, hb, Bool.false_eq_true, if_false] at hstep
  cases outer with
  | nil => cases hstep
  | cons frame outer =>
      cases frame with
      | array items index =>
          simp only at hstep
          split at hstep
          next hc =>
            cases hstep
            rw [hc]
            refine advances_byte (closing_ascii _) ?_ hrun
            exact ⟨rfl, trivial⟩
          next =>
            split at hstep
            next hc =>
              cases hstep
              rw [hc]
              refine advances_byte hcomma ?_ hrun
              exact ⟨rfl, trivial⟩
            next => cases hstep
      | object properties seen name =>
          simp only at hstep
          split at hstep
          next hc =>
            rw [hc]
            refine advances_byte (closing_ascii _) ?_ hrun
            exact between_of_closeObject hstep
          next =>
            split at hstep
            next hc =>
              cases hstep
              rw [hc]
              refine advances_byte hcomma ?_ hrun
              exact ⟨rfl, trivial⟩
            next => cases hstep

/-- From between two tokens an accepted walk advances to between two tokens. -/
theorem advances_of_run (hs : Between s) (h : run .strict s p (b :: rest) = .ok ()) :
    Advances (b :: rest) := by
  obtain ⟨outer, task⟩ := s
  cases hb : Byte.isBlank b with
  | true =>
      obtain ⟨s', hstep, hrun⟩ := more_of_run h
      rw [step_blank hs.1 hb] at hstep
      cases hstep
      exact advances_byte (Json.blank_ascii hb) hs hrun
  | false =>
      cases task with
      | value node => exact advances_value hs.2 hb h
      | ended => exact advances_ended hb h
      | firstItem items =>
          by_cases hc : b = Container.array.closing
          · obtain ⟨s', hstep, hrun⟩ := more_of_run h
            simp only [step, hb, Bool.false_eq_true, if_false, if_pos hc] at hstep
            cases hstep
            refine advances_byte (hc ▸ closing_ascii _) ?_ hrun
            exact ⟨rfl, trivial⟩
          · have hstep : step .strict ⟨outer, .firstItem items⟩ p b
                = beginItem .strict outer items 0 p b := by
              simp only [step, hb, Bool.false_eq_true, if_false, if_neg hc]
            exact advances_item hb hstep h
      | nextItem items index =>
          by_cases hc : b = Container.array.closing
          · obtain ⟨s', hstep, -⟩ := more_of_run h
            simp only [step, hb, Bool.false_eq_true, if_false, if_pos hc] at hstep
            cases hstep
          · have hstep : step .strict ⟨outer, .nextItem items index⟩ p b
                = beginItem .strict outer items index p b := by
              simp only [step, hb, Bool.false_eq_true, if_false, if_neg hc]
            exact advances_item hb hstep h
      | firstKey properties =>
          by_cases hc : b = Container.object.closing
          · obtain ⟨s', hstep, hrun⟩ := more_of_run h
            simp only [step, hb, Bool.false_eq_true, if_false, if_pos hc] at hstep
            exact advances_byte (hc ▸ closing_ascii _) (between_of_closeObject hstep) hrun
          · have hstep : step .strict ⟨outer, .firstKey properties⟩ p b
                = beginKey outer properties [] p b := by
              simp only [step, hb, Bool.false_eq_true, if_false, if_neg hc]
            exact advances_key hstep h
      | nextKey properties seen =>
          by_cases hc : b = Container.object.closing
          · obtain ⟨s', hstep, -⟩ := more_of_run h
            simp only [step, hb, Bool.false_eq_true, if_false, if_pos hc] at hstep
            cases hstep
          · have hstep : step .strict ⟨outer, .nextKey properties seen⟩ p b
                = beginKey outer properties seen p b := by
              simp only [step, hb, Bool.false_eq_true, if_false, if_neg hc]
            exact advances_key hstep h
      | colon properties seen name node =>
          obtain ⟨s', hstep, hrun⟩ := more_of_run h
          simp only [step, hb, Bool.false_eq_true, if_false] at hstep
          split at hstep
          next hc =>
            split at hstep
            next => cases hstep
            next hm =>
              cases hstep
              have hbetween : Between ⟨.object properties seen name :: outer, .value node⟩ :=
                ⟨rfl, Bool.eq_false_iff.mpr hm⟩
              exact advances_byte (hc ▸ (by decide : Byte.colon.toNat < 0x80)) hbetween hrun
          next => cases hstep
      | skip _ _ | word _ _ _ | number _ _ | string _ _ | key _ _ _ => cases hs.1

/-- What an accepted walk takes from between two tokens on is UTF-8. -/
theorem valid_of_run {bytes : List UInt8} (hs : Between s)
    (h : run .strict s p bytes = .ok ()) : Utf8.Valid bytes := by
  induction hn : bytes.length using Nat.strongRecOn generalizing s p bytes with
  | ind n ih =>
      cases bytes with
      | nil => exact Utf8.valid_nil
      | cons b rest =>
          obtain ⟨x, rest', s', p', hx, hne, hvalid, hs', hrun⟩ := advances_of_run hs h
          have hlt : rest'.length < n := by
            have hpos := List.length_pos_iff.mpr hne
            rw [← hn, hx, List.length_append]
            omega
          rw [hx]
          exact hvalid.append (ih rest'.length hlt hs' hrun rfl)

end Walk

/-- A document that strict mode accepts is UTF-8. -/
theorem valid_of_strict_ok {t : Schema} {document : List UInt8}
    (h : check t document .strict = .ok ()) : Utf8.Valid document := by
  rw [check] at h
  split at h
  next hblank =>
    have hblanks : Blanks document := List.all_eq_true.mp hblank
    rw [← List.append_nil document, Json.valid_blanks hblanks]
    exact Utf8.valid_nil
  next =>
    split at h
    next => cases h
    next hm =>
      exact Walk.valid_of_run ⟨rfl, Bool.eq_false_iff.mpr hm⟩ h

/-- Characters of every length stand in a key with an escape, in a value and beside it. -/
theorem valid_of_strict_ok_escapes :
    check (.object [("aé😀", .array Schema.string.asOptional)])
        (Utf8.encode " \x7b \"a\\u00e9😀\" : [ \"日\\n\", null ] \x7d\n") .strict = .ok () ∧
      Utf8.Valid (Utf8.encode " \x7b \"a\\u00e9😀\" : [ \"日\\n\", null ] \x7d\n") := by
  have h : check (.object [("aé😀", .array Schema.string.asOptional)])
      (Utf8.encode " \x7b \"a\\u00e9😀\" : [ \"日\\n\", null ] \x7d\n") .strict = .ok () := by
    decide +kernel
  exact ⟨h, valid_of_strict_ok h⟩

example : check .any [0x22, 0xFF, 0x22] .lenient = .ok () := by decide +kernel
example : Utf8.decode [0x22, 0xFF, 0x22] = .error 1 := by decide +kernel

end Jstn
