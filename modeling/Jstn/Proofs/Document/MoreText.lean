import Jstn.Proofs.Document.RootEnd

/-!
# More text after a document

A violation is certain before the value that breaks the rule has been read to its end: a
skipped value is judged by its first byte, and a scalar at a node that describes a container
has the wrong kind from the start.  `Doomed` lists the states of a walk in which a violation is
certain.  A byte keeps the walk doomed to the same violation or ends it
(`condemns_step`), so from there it rejects whatever comes (`upholds_run`).

A document that is rejected for a violation may end inside such a value, and more text may go
on with it.  So the violation stands unless the text turns out to be malformed, and trailing
data stays where it is (`more_text_repairs_nothing`).
-/

namespace Jstn

open Json (Fault Position Skip)

namespace Walk

/-! ## Walks that are doomed -/

/-- The violation that a skipped value is judged to have at its end, if it is sound. -/
def Purpose.violation? : Purpose → Option Violation
  | .ignore => none
  | .untypedItem => some .untypedItem
  | .scalar kind optional first _ => kind.violation? optional (judge.kindOfFirst first)

/-- Where the violation of a skipped value is found. -/
def Purpose.place (outer : List Frame) : Purpose → Location
  | .ignore | .scalar .. => location outer
  | .untypedItem => location outer.tail

/-- A violation is certain unless the text is malformed. -/
inductive Doomed : State → Location → Violation → Prop
  | skip {outer : List Frame} {purpose : Purpose} {k : Skip} {violation : Violation} :
      purpose.violation? = some violation →
      Doomed ⟨outer, .skip purpose k⟩ (purpose.place outer) violation
  | word {outer : List Frame} {node : Schema} {found : Kind} {due : List UInt8} :
      Doomed ⟨outer, .word node found due⟩ (location outer) (.wrongKind node.kind found)
  | number {outer : List Frame} {node : Schema} {t : Json.Number.State} :
      Doomed ⟨outer, .number node t⟩ (location outer) (.wrongKind node.kind .number)
  | string {outer : List Frame} {node : Schema} {t : Json.Literal.Decode} :
      Doomed ⟨outer, .string node t⟩ (location outer) (.wrongKind node.kind .string)

/-- The reply keeps a walk doomed to a violation, or ends it. -/
inductive Condemns (location : Location) (violation : Violation) : Reply → Prop
  | more {s : State} : Doomed s location violation → Condemns location violation (.more s)
  | breach {ending : Ending} {taken : Bool} :
      Condemns location violation (.breach ⟨location, violation, ending⟩ taken)
  | fault {fault : Fault} {position : Position} :
      Condemns location violation (.fault fault position)

/-- A value that breaks a rule is judged so, unless it is not sound. -/
theorem judge_of_violation? (outer : List Frame) {purpose : Purpose} {violation : Violation}
    (h : purpose.violation? = some violation) :
    (∃ fault position, judge outer purpose = .error (fault, position)) ∨
      ∃ ending, judge outer purpose = .ok (some ⟨purpose.place outer, violation, ending⟩) := by
  cases purpose with
  | ignore => cases h
  | untypedItem =>
      cases h
      exact Or.inr ⟨_, rfl⟩
  | scalar kind optional first watch =>
      have hkind : kind.violation? optional (judge.kindOfFirst first) = some violation := h
      cases watch with
      | broken position => exact Or.inl ⟨_, _, rfl⟩
      | sound s lead =>
          refine Or.inr ⟨endingAround outer, ?_⟩
          simp only [judge, hkind, Option.map_some]
          rfl

theorem violation?_fed (purpose : Purpose) (p : Position) (b : UInt8) :
    (stepSkip.fed p b purpose).violation? = purpose.violation? := by
  cases purpose <;> rfl

theorem place_fed (purpose : Purpose) (outer : List Frame) (p : Position) (b : UInt8) :
    (stepSkip.fed p b purpose).place outer = purpose.place outer := by
  cases purpose <;> rfl

theorem condemns_endSkip {outer : List Frame} {purpose : Purpose} {violation : Violation}
    (h : purpose.violation? = some violation) (taken : Bool) (p : Position) (b : UInt8) :
    Condemns (purpose.place outer) violation (endSkip outer purpose taken p b) := by
  rw [endSkip]
  rcases judge_of_violation? outer h with ⟨fault, position, hj⟩ | ⟨ending, hj⟩
  · rw [hj]
    exact .fault
  · rw [hj]
    exact .breach

theorem condemns_stepSkip {outer : List Frame} {purpose : Purpose} {violation : Violation}
    (h : purpose.violation? = some violation) (k : Skip) (p : Position) (b : UInt8) :
    Condemns (purpose.place outer) violation (stepSkip outer purpose k p b) := by
  have hfed := (violation?_fed purpose p b).trans h
  rw [stepSkip]
  cases k.step b with
  | more k' => exact place_fed purpose outer p b ▸ .more (.skip hfed)
  | done _ => exact place_fed purpose outer p b ▸ condemns_endSkip hfed true p b
  | stop _ => exact condemns_endSkip h false p b
  | fail fault side => exact .fault

/-- A byte keeps a walk doomed to the same violation, or ends it. -/
theorem condemns_step {s : State} {place : Location} {violation : Violation}
    (h : Doomed s place violation) (mode : Mode) (p : Position) (b : UInt8) :
    Condemns place violation (step mode s p b) := by
  cases h with
  | skip h => exact condemns_stepSkip h _ p b
  | @word outer node found due =>
      simp only [step]
      cases Json.Word.step due b with
      | more due => exact .more .word
      | done _ | stop _ => exact .breach
      | fail fault side => exact .fault
  | @number outer node t =>
      simp only [step]
      cases Json.Number.step t b with
      | more t => exact .more .number
      | done _ | stop _ => exact .breach
      | fail fault side => exact .fault
  | @string outer node t =>
      simp only [step]
      cases t.step b with
      | more t => exact .more .string
      | done decoded | stop decoded =>
          simp only
          cases Json.Literal.text decoded (p.after b) with
          | error e => exact .fault
          | ok text => exact .breach
      | fail fault side => exact .fault

end Walk

/-! ## Results that more text does not change -/

/-- A rejection stands.  Trailing data stays where it is, and a violation is found again
unless the text is malformed. -/
inductive Upholds : Rejection → Except Rejection Unit → Prop
  | trailingData {position : Position} :
      Upholds (.trailingData position) (.error (.trailingData position))
  | mismatch {location : Location} {violation : Violation} {position position' : Option Position} :
      Upholds (.mismatch location violation position)
        (.error (.mismatch location violation position'))
  | malformed {location : Location} {violation : Violation} {position : Option Position}
      {fault : Fault} {position' : Position} :
      Upholds (.mismatch location violation position) (.error (.malformed fault position'))

theorem Upholds.ne_ok {r : Rejection} {result : Except Rejection Unit} (h : Upholds r result) :
    result ≠ .ok () := by
  cases h <;> nofun

namespace Walk

/-- A doomed walk rejects at the end of the text. -/
theorem upholds_finish {s : State} {place : Location} {violation : Violation}
    (h : Doomed s place violation) (position : Option Position) (p : Position) :
    Upholds (.mismatch place violation position) (finish s p) := by
  cases h with
  | @skip outer purpose k _ h =>
      simp only [finish]
      cases k.finish with
      | error fault => exact .malformed
      | ok _ =>
          rcases judge_of_violation? outer h with ⟨fault, q, hj⟩ | ⟨ending, hj⟩
          · simp only [hj]
            exact .malformed
          · simp only [hj]
            exact .mismatch
  | @number outer node t =>
      simp only [finish]
      cases Json.Number.finish t with
      | error fault => exact .malformed
      | ok _ => exact .mismatch
  | word | string => exact .malformed

/-- A doomed walk rejects whatever comes. -/
theorem upholds_run {mode : Mode} {s : State} {place : Location} {violation : Violation}
    (h : Doomed s place violation) (position : Option Position) (p : Position)
    (bytes : List UInt8) :
    Upholds (.mismatch place violation position) (run mode s p bytes) := by
  induction bytes generalizing s p with
  | nil => exact upholds_finish h position p
  | cons b bytes ih =>
      have hstep := condemns_step h mode p b
      rw [run]
      generalize step mode s p b = reply at hstep
      cases hstep with
      | more h => exact ih h (p.after b)
      | breach => exact .mismatch
      | fault => exact .malformed

theorem doomed_of_judge {outer : List Frame} {purpose : Purpose} {breach : Breach}
    (h : judge outer purpose = .ok (some breach)) (k : Skip) :
    Doomed ⟨outer, .skip purpose k⟩ breach.location breach.violation := by
  cases purpose with
  | ignore => cases h
  | untypedItem =>
      cases h
      exact .skip rfl
  | scalar kind optional first watch =>
      cases watch with
      | broken position => cases h
      | sound s lead =>
          simp only [judge, Except.ok.injEq, Option.map_eq_some_iff] at h
          obtain ⟨violation, hviolation, rfl⟩ := h
          exact @Doomed.skip outer (.scalar kind optional first (.sound s lead)) k _ hviolation

/-- A violation at the end of the text was certain before. -/
theorem doomed_of_finish {s : State} {p : Position} {place : Location} {violation : Violation}
    {position : Option Position} (h : finish s p = .error (.mismatch place violation position)) :
    Doomed s place violation := by
  have hf := finishes s p
  rw [h] at hf
  cases hf with
  | judged hj => exact doomed_of_judge hj _
  | misplaced => exact .number

end Walk

/-- The reason to reject a document is a violation or trailing data. -/
inductive Rejection.IsFinal : Rejection → Prop
  | mismatch {location : Location} {violation : Violation} {position : Option Position} :
      IsFinal (.mismatch location violation position)
  | trailingData {position : Position} : IsFinal (.trailingData position)

namespace Walk

/-- More text does not change the reason to reject a walk, unless it is malformed. -/
theorem upholds_run_append {mode : Mode} {s : State} {p : Position} {bytes : List UInt8}
    {r : Rejection} (hr : r.IsFinal) (h : run mode s p bytes = .error r) (more : List UInt8) :
    Upholds r (run mode s p (bytes ++ more)) := by
  induction bytes generalizing s p with
  | nil =>
      cases hr with
      -- The value that breaks the rule may go on in the text after it.
      | mismatch => exact upholds_run (doomed_of_finish h) _ p more
      | trailingData =>
          have hfinish : finish s p = .error (.trailingData _) := h
          have hok := finish_of_readsRoot (hfinish ▸ ReadsRoot.trails)
          cases hfinish.symm.trans hok
  | cons b bytes ih =>
      rw [List.cons_append, run]
      rw [run] at h
      cases hs : step mode s p b with
      | more s' =>
          rw [hs] at h
          exact ih h
      | trailing =>
          rw [hs] at h
          cases h
          exact .trailingData
      | breach breach taken =>
          rw [hs] at h
          cases h
          exact .mismatch
      | fault fault position =>
          rw [hs] at h
          cases h
          cases hr

end Walk

/-- A document that is rejected for a violation or for trailing data is rejected with any text
after it, and for the same reason unless the text is malformed. -/
theorem more_text_repairs_nothing {t : Schema} {document : List UInt8} {mode : Mode}
    {r : Rejection} (hr : r.IsFinal) (h : check t document mode = .error r)
    (more : List UInt8) :
    check t (document ++ more) mode ≠ .ok () ∧ Upholds r (check t (document ++ more) mode) := by
  have hupholds : Upholds r (check t (document ++ more) mode) := by
    unfold check at h ⊢
    split at h
    next =>
      -- A blank document is accepted or lacks a value.
      split at h
      · cases h
      · cases h
        cases hr
    next hblank =>
      have hblank : isBlankDocument (document ++ more) ≠ true := fun hall =>
        hblank (by simp_all [isBlankDocument])
      rw [if_neg hblank]
      split at h
      next hrefuses =>
        cases h
        rw [if_pos hrefuses]
        exact .mismatch
      next hrefuses =>
        rw [if_neg hrefuses]
        exact Walk.upholds_run_append hr h more
  exact ⟨hupholds.ne_ok, hupholds⟩

/-- The number that has the wrong kind goes on in the text after it. -/
theorem more_text_repairs_nothing_number :
    let t := Schema.object [("a", .string)]
    let document := Utf8.encode "\x7b\"a\":1"
    let more := Utf8.encode "2\x7d"
    let r := Rejection.mismatch [.key "a"] (.wrongKind .string .number) (some ⟨1, 6⟩)
    check t document .lenient = .error r ∧
      check t (document ++ more) .lenient ≠ .ok () ∧
      Upholds r (check t (document ++ more) .lenient) := by
  intro t document more r
  have hcheck : check t document .lenient = .error r := by decide +kernel
  exact ⟨hcheck, more_text_repairs_nothing .mismatch hcheck more⟩

end Jstn
