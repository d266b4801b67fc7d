import Jstn.Kind

/-!
# Tokens of schema text

A token is the class of a piece of schema text.  Blanks and line breaks are
tokens too: a line break ends a property, so the parser has to see it.

Five words are keywords, in any mix of ASCII case.  Every other word is an
identifier, also one that merely begins with a keyword.
-/

namespace Jstn

/-- The class of a piece of schema text. -/
inductive Token
  /-- A run of spaces and tabs. -/
  | whitespace
  /-- A run of carriage returns and line feeds. -/
  | newline
  /-- The keyword of strings. -/
  | string
  /-- The keyword of numbers. -/
  | number
  /-- The keyword of booleans. -/
  | boolean
  /-- The keyword of null. -/
  | null
  /-- The keyword of any value. -/
  | any
  /-- The bracket that opens an object. -/
  | openBrace
  /-- The bracket that closes an object. -/
  | closeBrace
  /-- The bracket that opens an array. -/
  | openBracket
  /-- The bracket that closes an array. -/
  | closeBracket
  /-- The mark between a name and its type. -/
  | colon
  /-- The mark that ends a property. -/
  | semicolon
  /-- The mark of an optional type. -/
  | question
  /-- A word that is no keyword. -/
  | identifier
deriving DecidableEq, Repr, Inhabited

/-! ## Character classes -/

/-- A space or a tab. -/
def isBlank (c : Char) : Bool := c = ' ' || c = '\t'

/-- A carriage return or a line feed. -/
def isBreak (c : Char) : Bool := c = '\r' || c = '\n'

/-- An ASCII letter, with which a word begins. -/
def isWordStart (c : Char) : Bool := c.isAlpha

/-- An ASCII letter, an ASCII digit or an underscore, with which a word goes on. -/
def isWordPart (c : Char) : Bool := c.isAlphanum || c = '_'

namespace Token

/-- How messages name a token. -/
def description : Token → String
  | whitespace => "whitespace"
  | newline => "newline"
  | string => "'string'"
  | number => "'number'"
  | boolean => "'boolean'"
  | null => "'null'"
  | any => "'any'"
  | openBrace => "'\x7b'"
  | closeBrace => "'\x7d'"
  | openBracket => "'['"
  | closeBracket => "']'"
  | colon => "':'"
  | semicolon => "';'"
  | question => "'?'"
  | identifier => "identifier"

/-- Whether a token means nothing between declarations.  Line breaks do where
`breaksCount` holds. -/
def isTrivia (breaksCount : Bool) : Token → Bool
  | whitespace => true
  | newline => !breaksCount
  | _ => false

/-- The kind that a keyword declares. -/
def kind? : Token → Option Kind
  | string => some .string
  | number => some .number
  | boolean => some .boolean
  | null => some .null
  | any => some .any
  | _ => none

/-- The keyword tokens. -/
def keywords : List Token := [string, number, boolean, null, any]

/-- Whether a word spells a keyword token, in any case. -/
def spells (word : List Char) (token : Token) : Bool :=
  match token.kind? with
  | some kind => word.map Char.toLower = kind.name.toList
  | none => false

/-- The token of a word. -/
def ofWord (word : List Char) : Token := (keywords.find? (spells word)).getD identifier

/-- The token of a character that stands for itself. -/
def ofPunctuation? : Char → Option Token
  | '{' => some openBrace
  | '}' => some closeBrace
  | '[' => some openBracket
  | ']' => some closeBracket
  | ':' => some colon
  | ';' => some semicolon
  | '?' => some question
  | _ => none

example : ofWord "bOoLeAn".toList = boolean := by decide
example : ofWord "strings".toList = identifier := by decide

end Token

end Jstn
