import Jstn.Json.Fault
import Jstn.Json.Position

/-!
# Cursors

A cursor is a place in a text together with the bytes that are still unread.
-/

namespace Jstn

namespace Json

/-- A place in a text and the bytes after it. -/
structure Cursor where
  /-- Where the cursor stands. -/
  position : Position
  /-- The unread bytes. -/
  rest : List UInt8
deriving DecidableEq, Inhabited

namespace Cursor

/-- The start of a text. -/
def ofBytes (bytes : List UInt8) : Cursor := ⟨.start, bytes⟩

/-- The cursor after the first unread byte. -/
def advance : Cursor → Cursor
  | ⟨p, []⟩ => ⟨p, []⟩
  | ⟨p, b :: rest⟩ => ⟨p.after b, rest⟩

/-- Skips blanks from a position on. -/
def skipBlanksFrom (p : Position) : List UInt8 → Cursor
  | [] => ⟨p, []⟩
  | b :: rest => if Byte.isBlank b then skipBlanksFrom (p.after b) rest else ⟨p, b :: rest⟩

/-- The cursor before the first unread byte that is not blank. -/
def skipBlanks (c : Cursor) : Cursor := skipBlanksFrom c.position c.rest

/-- A fault that points at the first unread byte. -/
def peek (c : Cursor) (fault : Fault) : Fault × Position := (fault, c.advance.position)

/-- A fault where the cursor stands. -/
def here (c : Cursor) (fault : Fault) : Fault × Position := (fault, c.position)

theorem length_skipBlanksFrom (p : Position) (bytes : List UInt8) :
    (skipBlanksFrom p bytes).rest.length ≤ bytes.length := by
  induction bytes generalizing p with
  | nil => exact Nat.le_refl _
  | cons b rest ih =>
      rw [skipBlanksFrom]
      split
      · exact Nat.le_succ_of_le (ih _)
      · exact Nat.le_refl _

theorem length_skipBlanks (c : Cursor) : c.skipBlanks.rest.length ≤ c.rest.length :=
  length_skipBlanksFrom c.position c.rest

theorem length_advance (c : Cursor) : c.advance.rest.length ≤ c.rest.length := by
  match c with
  | ⟨_, []⟩ => exact Nat.le_refl _
  | ⟨_, _ :: _⟩ => exact Nat.le_succ _

end Cursor

end Json

end Jstn
