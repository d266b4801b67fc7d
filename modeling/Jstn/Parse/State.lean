import Jstn.Parse.Error
import Jstn.Schema

/-!
# The state of the parser

The parser is a machine that takes one lexeme at a time.  Its state says what
the grammar asks for next (`Point`) and which arrays and objects wait for the
type that is being read (`Frame`), innermost first.  A lexeme either moves the
machine on or is the error of the text, so nothing is looked at twice and an
error never depends on what follows it.

The grammar, with blanks left out:

* schema: a type, then line breaks up to the end of the text.
* type: a declaration and, on the same line, an optional `?`.
* declaration: a keyword, `[]`, `[` type `]`, or `{` properties `}`.
* property: an identifier, `:`, a type, and a `;` or a line break.  The last
  property may do without its end.

Line breaks are skipped before a declaration, a name, a colon and a closing
bracket.  So a line break blocks a `?`, ends a property, and means nothing
elsewhere.

When a type is due, all open brackets are on the stack.  A further bracket
opens only while there are fewer of them than the limit.
-/

namespace Jstn

namespace Parse

/-- An array or object that waits for the type being read. -/
inductive Frame
  /-- The type is that of the items. -/
  | array
  /-- The type is that of property `name`, and `done` are the properties before it. -/
  | object (done : List (String × Schema)) (name : String)
deriving DecidableEq, Inhabited

/-- What the grammar asks for next. -/
inductive Point
  /-- A declaration. -/
  | typeDue
  /-- A declaration or `]`, right after `[`. -/
  | itemsDue
  /-- A declaration has been read.  A `?` still belongs to it. -/
  | declared (t : Schema)
  /-- A type has been read to its end. -/
  | typed (t : Schema)
  /-- A property or `}`, after the properties `done`. -/
  | propertyDue (done : List (String × Schema))
  /-- The colon after a name. -/
  | colonDue (done : List (String × Schema)) (name : String)
deriving DecidableEq, Inhabited

/-- A state of the parser. -/
structure State where
  /-- The arrays and objects that wait for a type, innermost first. -/
  stack : List Frame
  /-- What is due inside them. -/
  point : Point
deriving DecidableEq, Inhabited

namespace State

/-- The state before the first lexeme. -/
def start : State := ⟨[], .typeDue⟩

/-- The number of open brackets. -/
def depth (s : State) : Nat :=
  match s.point with
  | .itemsDue | .propertyDue _ | .colonDue .. => s.stack.length + 1
  | .typeDue | .declared _ | .typed _ => s.stack.length

/-- A token where a declaration is due inside `stack`. -/
def stepType (limit : Option Nat) (stack : List Frame) (token : Token) (found : Lexeme) :
    Except ParseError State :=
  match token with
  | .newline => .ok ⟨stack, .typeDue⟩
  | .openBracket => opened ⟨stack, .itemsDue⟩
  | .openBrace => opened ⟨stack, .propertyDue []⟩
  | _ =>
      match token.kind? with
      | some kind => .ok ⟨stack, .declared (.ofKind kind)⟩
      | none => .error (.unexpectedToken .type found)
where
  /-- The state inside a new bracket, if there is room for it. -/
  opened (inside : State) : Except ParseError State :=
    match limit with
    | some n => if stack.length < n then .ok inside else .error (.tooDeep n found.span)
    | none => .ok inside

/-- A token after a type that has been read to its end inside `stack`. -/
def stepTyped (stack : List Frame) (t : Schema) (token : Token) (found : Lexeme) :
    Except ParseError State :=
  match stack with
  | [] =>
      match token with
      | .newline => .ok ⟨[], .typed t⟩
      | _ => .error (.trailingInput found)
  | .array :: outer =>
      match token with
      | .newline => .ok ⟨.array :: outer, .typed t⟩
      | .closeBracket => .ok ⟨outer, .declared (.array t)⟩
      | _ => .error (.unexpectedToken (.token .closeBracket) found)
  | .object done name :: outer =>
      match token with
      | .newline | .semicolon => .ok ⟨outer, .propertyDue (NameMap.insert name t done)⟩
      | .closeBrace =>
          .ok ⟨outer, .declared { kind := .object, properties := NameMap.insert name t done }⟩
      | _ => .error (.unendedProperty name found)

/-- A token that is not blank. -/
def stepToken (limit : Option Nat) (s : State) (token : Token) (found : Lexeme) :
    Except ParseError State :=
  match s.point with
  | .typeDue => stepType limit s.stack token found
  | .itemsDue =>
      match token with
      | .newline => .ok s
      | .closeBracket => .ok ⟨s.stack, .declared .emptyArray⟩
      | _ => stepType limit (.array :: s.stack) token found
  | .declared t =>
      match token with
      | .question => .ok ⟨s.stack, .typed t.asOptional⟩
      | _ => stepTyped s.stack t token found
  | .typed t => stepTyped s.stack t token found
  | .propertyDue done =>
      match token with
      | .newline => .ok s
      | .closeBrace => .ok ⟨s.stack, .declared { kind := .object, properties := done }⟩
      | .identifier => .ok ⟨s.stack, .colonDue done found.text⟩
      | _ => .error (.unexpectedToken .property found)
  | .colonDue done name =>
      match token with
      | .newline => .ok s
      | .colon => .ok ⟨.object done name :: s.stack, .typeDue⟩
      | _ => .error (.unexpectedToken (.token .colon) found)

/-- The machine takes one lexeme.  Blanks never matter, and a character that
begins no token is an error everywhere. -/
def step (limit : Option Nat) (s : State) (lexeme : Lexeme) : Except ParseError State :=
  match lexeme with
  | .illegal char span => .error (.illegalCharacter char span)
  | .token .whitespace _ _ => .ok s
  | .token token _ _ => stepToken limit s token lexeme

/-- What is still asked for at the end of the text, if something is. -/
def finish (s : State) : Except ParseError Schema :=
  match s.point with
  | .typeDue | .itemsDue => .error (.unexpectedEnd .type)
  | .declared t | .typed t =>
      match s.stack with
      | [] => .ok t
      | .array :: _ => .error (.unexpectedEnd (.token .closeBracket))
      | .object .. :: _ => .error (.unexpectedEnd .propertyEnd)
  | .propertyDue _ => .error (.unexpectedEnd .property)
  | .colonDue .. => .error (.unexpectedEnd (.token .colon))

/-- The machine takes lexemes in turn, up to the first error. -/
def run (limit : Option Nat) (s : State) (lexemes : List Lexeme) : Except ParseError State :=
  lexemes.foldlM (step limit) s

end State

end Parse

end Jstn
