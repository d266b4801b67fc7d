import Jstn.Lexeme

/-!
# Errors of schema text

An error says what the grammar asked for and which lexeme stood there instead.
The wording is in `ParseError.message` alone, and the place an error points at
is `ParseError.span?`.
-/

namespace Jstn

/-- What the grammar asks for at some place. -/
inductive Expectation
  /-- A type declaration. -/
  | type
  /-- A property, or the end of the object. -/
  | property
  /-- The end of a property. -/
  | propertyEnd
  /-- One token. -/
  | token (token : Token)
deriving DecidableEq, Repr, Inhabited

/-- How messages name an expectation. -/
def Expectation.description : Expectation → String
  | type => "type ('string', 'number', 'boolean', 'null', 'any', '[' or '\x7b')"
  | property => "property name or '\x7d'"
  | propertyEnd => "';', newline, or '\x7d'"
  | token t => t.description

/-- Why schema text is refused. -/
inductive ParseError
  /-- A character begins no token. -/
  | illegalCharacter (char : Char) (span : Span)
  /-- A token stands where the grammar asks for something else. -/
  | unexpectedToken (expected : Expectation) (found : Lexeme)
  /-- The text ends inside a declaration. -/
  | unexpectedEnd (expected : Expectation)
  /-- A property is followed by a token that does not end it. -/
  | unendedProperty (name : String) (found : Lexeme)
  /-- A token follows the declaration of the root. -/
  | trailingInput (found : Lexeme)
  /-- A bracket opens more levels than the limit allows. -/
  | tooDeep (limit : Nat) (span : Span)
deriving DecidableEq, Repr, Inhabited

namespace ParseError

/-- The stretch of text an error points at.  An error at the end of the text
points nowhere. -/
def span? : ParseError → Option Span
  | illegalCharacter _ span => some span
  | unexpectedToken _ found => some found.span
  | unexpectedEnd _ => none
  | unendedProperty _ found => some found.span
  | trailingInput found => some found.span
  | tooDeep _ span => some span

/-- The text of an error. -/
def message : ParseError → String
  | illegalCharacter char span =>
      "illegal character '" ++ char.toString ++ "' at " ++ span.render
  | unexpectedToken expected found =>
      "unexpected token at " ++ found.span.render ++ ": expected " ++ expected.description
        ++ ", found " ++ found.describe
  | unexpectedEnd expected => "unexpected end of input: expected " ++ expected.description
  | unendedProperty name found =>
      "property '" ++ name ++ "' at " ++ found.span.render
        ++ " must end with ';', a newline, or '\x7d', found " ++ found.describe
  | trailingInput found =>
      "unexpected " ++ found.describe ++ " at " ++ found.span.render
        ++ " after the end of the schema"
  | tooDeep limit span =>
      "nesting deeper than " ++ toString limit ++ " levels at " ++ span.render

end ParseError

end Jstn
