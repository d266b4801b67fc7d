import Jstn.Json.Cursor

/-!
# Readers of one thing

Words, numbers, strings and whole values are read by small machines that take
one byte at a time.  A machine says what each byte did to it.  It may end on a
byte or before it: a string ends with its closing quote, a number with whatever
no longer belongs to it.

`drive` runs a machine over unread bytes and gives what it read and the cursor
after it.
-/

namespace Jstn

namespace Json

/-- Which side of the byte at hand a fault is placed on. -/
inductive Side
  | before
  | past
deriving DecidableEq, Repr, Inhabited

/-- The position on one side of a byte. -/
def Side.place (side : Side) (p : Position) (b : UInt8) : Position :=
  match side with
  | before => p
  | past => p.after b

/-- What a byte does to a machine with states `σ` that reads an `α`. -/
inductive Reply (σ α : Type)
  /-- The byte is taken and the machine goes on. -/
  | more (s : σ)
  /-- The byte is taken and is the last one. -/
  | done (a : α)
  /-- The machine ended before the byte. -/
  | stop (a : α)
  /-- The byte cannot stand here. -/
  | fail (fault : Fault) (side : Side)
deriving DecidableEq, Inhabited

variable {σ α : Type}

/-- Runs a machine over unread bytes. -/
def drive (step : σ → UInt8 → Reply σ α) (finish : σ → Except Fault α) (s : σ) (p : Position) :
    List UInt8 → Except (Fault × Position) (α × Cursor)
  | [] =>
      match finish s with
      | .ok a => .ok (a, ⟨p, []⟩)
      | .error fault => .error (fault, p)
  | b :: rest =>
      match step s b with
      | .more s => drive step finish s (p.after b) rest
      | .done a => .ok (a, ⟨p.after b, rest⟩)
      | .stop a => .ok (a, ⟨p, b :: rest⟩)
      | .fail fault side => .error (fault, side.place p b)

/-- A machine leaves no more than it was given. -/
theorem length_drive {step : σ → UInt8 → Reply σ α} {finish : σ → Except Fault α} {s : σ}
    {p : Position} {bytes : List UInt8} {a : α} {c : Cursor}
    (h : drive step finish s p bytes = .ok (a, c)) : c.rest.length ≤ bytes.length := by
  induction bytes generalizing s p with
  | nil =>
      rw [drive] at h
      split at h
      · obtain ⟨-, rfl⟩ := Prod.mk.inj (Except.ok.inj h)
        exact Nat.le_refl _
      · cases h
  | cons b rest ih =>
      rw [drive] at h
      split at h
      · exact Nat.le_succ_of_le (ih h)
      · obtain ⟨-, rfl⟩ := Prod.mk.inj (Except.ok.inj h)
        exact Nat.le_succ _
      · obtain ⟨-, rfl⟩ := Prod.mk.inj (Except.ok.inj h)
        exact Nat.le_refl _
      · cases h

end Json

end Jstn
