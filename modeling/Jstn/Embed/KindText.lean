import Jstn.Embed.Reader

/-!
# Kinds as JSON strings

A kind stands in a JSON document as a string literal that holds its name.  It is
also read from an object whose only member has that name as its key and null as
its value.
-/

namespace Jstn

open Json (Byte.quote Byte.openBrace Container Cursor)

namespace Embed

/-- The literal that stands for a kind. -/
def writeKind (kind : Kind) : String := Json.Literal.encode kind.name

/-- Reads the name of a kind, from its opening quote on. -/
def readKindName (c : Cursor) : Outcome Kind :=
  match readString c with
  | .error failure => .error failure
  | .ok (name, c) =>
      match Kind.ofName? name with
      | some kind => .ok (kind, c)
      | none => .error (.placed (.unknownKind name) c.position)

/-- Reads the end of an object that has one member. -/
def readOnlyMemberEnd (c : Cursor) : Outcome Unit :=
  let c := c.skipBlanks
  match c.rest with
  | [] => .error (.ofFault (c.here .endInObject))
  | b :: _ =>
      if b = Container.object.closing then .ok ((), c.advance)
      else .error (.ofFault (c.here .expectedValue))

/-- Reads the value of a member that names a kind, and the end of its object. -/
def readKindMemberRest (kind : Kind) (c : Cursor) : Outcome Kind :=
  match readColon c with
  | .error failure => .error failure
  | .ok ((), c) =>
      match readNull .unit c with
      | .error failure => .error failure
      | .ok ((), c) => (readOnlyMemberEnd c).map fun r => (kind, r.2)

/-- Reads a kind from an object, from the byte after its brace on. -/
def readKindMember (c : Cursor) : Outcome Kind :=
  let c := c.skipBlanks
  match c.rest with
  | [] => failPeek c .endInObject
  | b :: _ =>
      if b = Byte.quote then
        match readKindName c with
        | .error failure => .error failure
        | .ok (kind, c) => readKindMemberRest kind c
      else if b = Container.object.closing then failPeek c .expectedValue
      else failPeek c .keyNotString

/-- Reads a kind in either form. -/
def readKindValue (c : Cursor) : Outcome Kind :=
  let c := c.skipBlanks
  match c.rest with
  | [] => failPeek c .endInValue
  | b :: _ =>
      if b = Byte.quote then readKindName c
      else if b = Byte.openBrace then readKindMember c.advance
      else failPeek c .expectedValue

/-- Reads JSON text that is one kind. -/
def readKind (text : List UInt8) : Except Error Kind := readWhole readKindValue text

end Embed

end Jstn
