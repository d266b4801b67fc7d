import Jstn.Document.Walk

/-!
# Validating a document

A document is a list of bytes.  A blank one stands for an absent value, which is
fine exactly where the root is optional.  Any other has to be one JSON value that
the walk accepts, with nothing but blanks around it.
-/

namespace Jstn

/-- Whether a document is empty or blank. -/
def isBlankDocument (document : List UInt8) : Bool := document.all Json.Byte.isBlank

/-- Validates a document.  The error is the first reason to reject it. -/
def check (t : Schema) (document : List UInt8) (mode : Mode) : Except Rejection Unit :=
  if isBlankDocument document then
    if t.optional then .ok () else .error .missingValue
  else if Walk.refuses mode t then .error (.mismatch [] .anyInStrict none)
  else Walk.run mode ⟨[], .value t⟩ .start document

/-- Whether a document satisfies a schema. -/
def accepts (t : Schema) (document : List UInt8) (mode : Mode) : Bool :=
  match check t document mode with
  | .ok () => true
  | .error _ => false

/-- Whether a document satisfies a schema in lenient mode. -/
def valid (t : Schema) (document : List UInt8) : Bool := accepts t document .lenient

/-- Whether a document satisfies a schema in strict mode. -/
def strictlyValid (t : Schema) (document : List UInt8) : Bool := accepts t document .strict

end Jstn
