import Jstn.Document.Check

/-!
# How the modes differ

The mode of a walk matters at two kinds of places.  A property that is not
declared ends the walk in strict mode, and so does a value at an `any` node.
Everywhere else both modes take the same step (`step_modes`).  So the walks of
both modes run side by side until one of these two violations ends the strict one
(`run_modes`).
-/

namespace Jstn

open Json (Byte.isBlank Position)

/-- A violation that only strict mode knows. -/
def Violation.IsStrictOnly : Violation → Prop
  | .anyInStrict | .undeclared _ => True
  | .wrongKind .. | .requiredNull _ | .untypedItem | .missing _ => False

/-- The text that a mismatch shows after its location. -/
def mismatchText (violation : Violation) (position : Option Position) : String :=
  violation.message ++ Rejection.positionSuffix position

theorem message_mismatch (location : Location) (violation : Violation)
    (position : Option Position) :
    (Rejection.mismatch location violation position).message =
      "mismatch at " ++ location.render ++ ": " ++ mismatchText violation position := by
  have hmessage : (Rejection.mismatch location violation position).message =
      "mismatch at " ++ location.render ++ ": " ++ violation.message
        ++ Rejection.positionSuffix position := rfl
  rw [hmessage, mismatchText, String.append_assoc]

/-- The text of a mismatch that only strict mode knows. -/
def IsStrictText (text : String) : Prop :=
  ∃ more, text = "undeclared property `" ++ more ∨
    text = "`any` values are not accepted in strict mode" ++ more

theorem isStrictText_of_violation {violation : Violation} (h : violation.IsStrictOnly)
    (position : Option Position) : IsStrictText (mismatchText violation position) := by
  cases violation with
  | anyInStrict =>
      have hmessage :
          Violation.anyInStrict.message = "`any` values are not accepted in strict mode" := rfl
      exact ⟨Rejection.positionSuffix position, Or.inr (by rw [mismatchText, hmessage])⟩
  | undeclared name =>
      have hmessage :
          (Violation.undeclared name).message = "undeclared property `" ++ name ++ "`" := rfl
      refine ⟨name ++ ("`" ++ Rejection.positionSuffix position), Or.inl ?_⟩
      rw [mismatchText, hmessage, String.append_assoc, String.append_assoc]
  | wrongKind _ _ | requiredNull _ | untypedItem | missing _ => exact h.elim

namespace Walk

/-- The walk ends with a violation that only strict mode knows. -/
def Reply.IsStrictOnly : Reply → Prop
  | .breach found _ => found.violation.IsStrictOnly
  | .more _ | .fault .. | .trailing => False

theorem beginItem_modes (outer : List Frame) (items : Option Schema) (index : Nat) (p : Position)
    (b : UInt8) :
    beginItem .strict outer items index p b = beginItem .lenient outer items index p b ∨
      (beginItem .strict outer items index p b).IsStrictOnly := by
  cases items with
  | none => exact Or.inl rfl
  | some node =>
      by_cases hk : node.kind = .any
      · right
        simp [beginItem, refuses, hk, Reply.IsStrictOnly, Violation.IsStrictOnly]
      · left
        simp [beginItem, refuses, hk]

theorem endKey_modes (outer : List Frame) (properties : List (String × Schema))
    (seen : List String) (decoded : List UInt8) (p : Position) :
    endKey .strict outer properties seen decoded p
        = endKey .lenient outer properties seen decoded p ∨
      (endKey .strict outer properties seen decoded p).IsStrictOnly := by
  unfold endKey
  cases Json.Literal.text decoded p with
  | error e => exact Or.inl rfl
  | ok name =>
      simp only
      cases NameMap.find? name properties with
      | some node => exact Or.inl rfl
      | none => exact Or.inr trivial

/-- Both modes take the same step, or the strict one ends with a violation that
only it knows. -/
theorem step_modes (s : State) (p : Position) (b : UInt8) :
    step .strict s p b = step .lenient s p b ∨ (step .strict s p b).IsStrictOnly := by
  match s with
  | ⟨outer, .value _⟩ | ⟨outer, .skip ..⟩ | ⟨outer, .word ..⟩ | ⟨outer, .number ..⟩
  | ⟨outer, .string ..⟩ | ⟨outer, .ended⟩ | ⟨outer, .firstKey _⟩ | ⟨outer, .nextKey ..⟩ =>
      exact Or.inl rfl
  | ⟨outer, .firstItem items⟩ =>
      simp only [step]
      split
      · exact Or.inl rfl
      · split
        · exact Or.inl rfl
        · exact beginItem_modes outer items 0 p b
  | ⟨outer, .nextItem items index⟩ =>
      simp only [step]
      split
      · exact Or.inl rfl
      · split
        · exact Or.inl rfl
        · exact beginItem_modes outer items index p b
  | ⟨outer, .key properties seen t⟩ =>
      simp only [step]
      cases t.step b with
      | more t => exact Or.inl rfl
      | done decoded => exact endKey_modes outer properties seen decoded (p.after b)
      | stop decoded => exact endKey_modes outer properties seen decoded (p.after b)
      | fail fault side => exact Or.inl rfl
  | ⟨outer, .colon properties seen name node⟩ =>
      simp only [step]
      split
      · exact Or.inl rfl
      · split
        · by_cases hk : node.kind = .any
          · right
            simp [refuses, hk, Reply.IsStrictOnly, Violation.IsStrictOnly]
          · left
            simp [refuses, hk]
        · exact Or.inl rfl

/-- The walks of both modes give the same result, or the strict one ends with a
violation that only it knows. -/
theorem run_modes (s : State) (p : Position) (bytes : List UInt8) :
    run .strict s p bytes = run .lenient s p bytes ∨
      ∃ location violation position, violation.IsStrictOnly ∧
        run .strict s p bytes = .error (.mismatch location violation position) := by
  induction bytes generalizing s p with
  | nil => exact Or.inl rfl
  | cons b bytes ih =>
      rcases step_modes s p b with h | h
      · rw [run, run, h]
        cases step .lenient s p b with
        | more s => exact ih s (p.after b)
        | fault _ _ | breach _ _ | trailing => exact Or.inl rfl
      · rw [run]
        cases hs : step .strict s p b with
        | breach breach taken =>
            rw [hs] at h
            exact Or.inr ⟨_, _, _, h, rfl⟩
        | more _ | fault _ _ | trailing =>
            rw [hs] at h
            exact h.elim

end Walk

theorem check_modes (t : Schema) (document : List UInt8) :
    check t document .strict = check t document .lenient ∨
      ∃ location violation position, violation.IsStrictOnly ∧
        check t document .strict = .error (.mismatch location violation position) := by
  have hlenient : Walk.refuses .lenient t = false := rfl
  unfold check
  rw [hlenient]
  split
  · exact Or.inl rfl
  · split
    · exact Or.inr ⟨[], .anyInStrict, none, trivial, rfl⟩
    · exact Walk.run_modes ⟨[], .value t⟩ .start document

/-- The modes differ only where strict mode rejects an undeclared property or a
value at an `any` node.  Every other result is the same in both. -/
theorem modes_differ_only_where_meant (t : Schema) (document : List UInt8) :
    (check t document .strict ≠ check t document .lenient →
      ∃ location violation position,
        check t document .strict = .error (.mismatch location violation position) ∧
        (Rejection.mismatch location violation position).message =
          "mismatch at " ++ location.render ++ ": " ++ mismatchText violation position ∧
        IsStrictText (mismatchText violation position)) ∧
    (check t document .strict = .ok () → check t document .lenient = .ok ()) ∧
    ∀ r, check t document .strict = .error r →
      (∀ location violation position, r = .mismatch location violation position →
        ¬IsStrictText (mismatchText violation position)) →
      check t document .lenient = .error r := by
  rcases check_modes t document with h | ⟨location, violation, position, hv, h⟩
  · rw [h]
    refine ⟨?_, id, ?_⟩
    · intro hne
      exact absurd rfl hne
    · intro r hr _
      exact hr
  · have htext := isStrictText_of_violation hv position
    have hmessage := message_mismatch location violation position
    refine ⟨fun _ => ⟨location, violation, position, h, hmessage, htext⟩, ?_, ?_⟩
    · intro hok
      rw [h] at hok
      cases hok
    · intro r hr hother
      rw [h] at hr
      cases hr
      exact absurd htext (hother location violation position rfl)

end Jstn
