/-!
# Faults of JSON text

A fault is a reason why bytes are not JSON text that can be read.  Four of them
say that the text ended too early.
-/

namespace Jstn

namespace Json

/-- A reason why JSON text cannot be read. -/
inductive Fault
  | endInValue
  | endInString
  | endInArray
  | endInObject
  | expectedWord
  | expectedValue
  | expectedColon
  | expectedCommaOrBracket
  | expectedCommaOrBrace
  | keyNotString
  | trailingComma
  | trailingCharacters
  | invalidNumber
  | numberOutOfRange
  | controlCharacter
  | invalidEscape
  | loneSurrogate
  | missingSurrogate
  | invalidUnicode
  | tooDeep
deriving DecidableEq, Repr, Inhabited

namespace Fault

/-- The text of a fault. -/
def message : Fault → String
  | endInValue => "EOF while parsing a value"
  | endInString => "EOF while parsing a string"
  | endInArray => "EOF while parsing a list"
  | endInObject => "EOF while parsing an object"
  | expectedWord => "expected ident"
  | expectedValue => "expected value"
  | expectedColon => "expected `:`"
  | expectedCommaOrBracket => "expected `,` or `]`"
  | expectedCommaOrBrace => "expected `,` or `\x7d`"
  | keyNotString => "key must be a string"
  | trailingComma => "trailing comma"
  | trailingCharacters => "trailing characters"
  | invalidNumber => "invalid number"
  | numberOutOfRange => "number out of range"
  | controlCharacter => "control character (\\u0000-\\u001F) found while parsing a string"
  | invalidEscape => "invalid escape"
  | loneSurrogate => "lone leading surrogate in hex escape"
  | missingSurrogate => "unexpected end of hex escape"
  | invalidUnicode => "invalid unicode code point"
  | tooDeep => "recursion limit exceeded"

/-- Whether a fault says that the text ended too early. -/
def isEnd : Fault → Bool
  | endInValue | endInString | endInArray | endInObject => true
  | _ => false

end Fault

end Json

end Jstn
