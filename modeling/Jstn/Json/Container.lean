import Jstn.Json.Machine

/-!
# Containers of JSON

An array or an object.  A reader that gives up inside a container still tries
the container's end, and where that leaves the cursor is where its complaint is
placed (`Container.tryEnd`).
-/

namespace Jstn

namespace Json

/-- An array or an object. -/
inductive Container
  | array
  | object
deriving DecidableEq, Repr, Inhabited

namespace Container

/-- The container that a bracket opens. -/
def ofOpening? (b : UInt8) : Option Container :=
  if b = Byte.openBracket then some array
  else if b = Byte.openBrace then some object
  else none

/-- The bracket that closes a container. -/
def closing : Container → UInt8
  | array => Byte.closeBracket
  | object => Byte.closeBrace

/-- The text ends where a container could end or go on. -/
def endFault : Container → Fault
  | array => .endInArray
  | object => .endInObject

/-- Something other than a comma or the closing bracket follows an entry. -/
def commaFault : Container → Fault
  | array => .expectedCommaOrBracket
  | object => .expectedCommaOrBrace

/-- Where an attempt to end a container leaves the cursor.  Blanks and the
closing bracket are taken.  In an array a comma and the blanks after it are
taken too. -/
def tryEnd (container : Container) (c : Cursor) : Cursor :=
  let c := c.skipBlanks
  match c.rest with
  | [] => c
  | b :: _ =>
      if b = container.closing then c.advance
      else
        match container with
        | array => if b = Byte.comma then c.advance.skipBlanks else c
        | object => c

end Container

end Json

end Jstn
