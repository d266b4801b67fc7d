import Jstn.Json.Byte

/-!
# Positions in JSON text

A position is a line, counted from one, and the number of bytes read on that
line.  The position before a byte and the position after it are both of use: an
error that points at an unread byte is placed after it.
-/

namespace Jstn

namespace Json

/-- A place between two bytes of a text. -/
structure Position where
  /-- The line, counted from one. -/
  line : Nat
  /-- The number of bytes since the last line feed. -/
  column : Nat
deriving DecidableEq, Repr, Inhabited

namespace Position

/-- The position before the first byte. -/
def start : Position := ⟨1, 0⟩

/-- The position after one more byte. -/
def after (p : Position) (b : UInt8) : Position :=
  if b = Byte.lineFeed then ⟨p.line + 1, 0⟩ else ⟨p.line, p.column + 1⟩

/-- The position after more bytes. -/
def afterAll (p : Position) (bytes : List UInt8) : Position := bytes.foldl after p

/-- The position some columns earlier on the same line. -/
def back (p : Position) (columns : Nat) : Position := ⟨p.line, p.column - columns⟩

/-- The position as messages end with it. -/
def suffix (p : Position) : String :=
  " at line " ++ toString p.line ++ " column " ++ toString p.column

example : start.afterAll [0x61, 0x0A, 0x62, 0x63] = ⟨2, 2⟩ := by decide

end Position

end Json

end Jstn
