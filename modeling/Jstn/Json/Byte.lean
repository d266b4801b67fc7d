/-!
# Bytes with a meaning in JSON text

JSON text is read as bytes.  All bytes that structure it are ASCII.  Blanks are
the space, the tab, the line feed and the carriage return, and nothing else.
-/

namespace Jstn

namespace Json

namespace Byte

/-- The line feed, which ends a line. -/
def lineFeed : UInt8 := 0x0A
/-- A double quote. -/
def quote : UInt8 := 0x22
/-- A comma. -/
def comma : UInt8 := 0x2C
/-- A plus sign. -/
def plus : UInt8 := 0x2B
/-- A minus sign. -/
def minus : UInt8 := 0x2D
/-- A decimal point. -/
def point : UInt8 := 0x2E
/-- The digit zero. -/
def zero : UInt8 := 0x30
/-- A colon. -/
def colon : UInt8 := 0x3A
/-- The bracket that opens an array. -/
def openBracket : UInt8 := 0x5B
/-- A backslash. -/
def backslash : UInt8 := 0x5C
/-- The bracket that closes an array. -/
def closeBracket : UInt8 := 0x5D
/-- The letter `u`, which begins an escape of four hexadecimal digits. -/
def letterU : UInt8 := 0x75
/-- The bracket that opens an object. -/
def openBrace : UInt8 := 0x7B
/-- The bracket that closes an object. -/
def closeBrace : UInt8 := 0x7D

/-- A space, a tab, a line feed or a carriage return. -/
def isBlank (b : UInt8) : Bool := b = 0x20 || b = 0x09 || b = 0x0A || b = 0x0D

/-- A decimal digit. -/
def isDigit (b : UInt8) : Bool := 0x30 ≤ b && b ≤ 0x39

/-- The value of a decimal digit. -/
def digitValue (b : UInt8) : Nat := b.toNat - 0x30

/-- The letter of an exponent, in either case. -/
def isExponentLetter (b : UInt8) : Bool := b = 0x65 || b = 0x45

/-- A control character, which may not stand in a string as it is. -/
def isControl (b : UInt8) : Bool := b < 0x20

/-- The value of a hexadecimal digit, in either case. -/
def hexValue? (b : UInt8) : Option Nat :=
  if isDigit b then some (digitValue b)
  else if 0x41 ≤ b ∧ b ≤ 0x46 then some (b.toNat - 0x37)
  else if 0x61 ≤ b ∧ b ≤ 0x66 then some (b.toNat - 0x57)
  else none

/-- The byte that a backslash and one other byte stand for. -/
def escaped? (b : UInt8) : Option UInt8 :=
  if b = quote then some quote
  else if b = backslash then some backslash
  else if b = 0x2F then some 0x2F
  else if b = 0x62 then some 0x08
  else if b = 0x66 then some 0x0C
  else if b = 0x6E then some 0x0A
  else if b = 0x72 then some 0x0D
  else if b = 0x74 then some 0x09
  else none

end Byte

end Json

end Jstn
