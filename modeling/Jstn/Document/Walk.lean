import Jstn.Document.Walk.Step

/-!
# Walking a document along a schema

The walk is a machine that takes one byte of the document at a time.  It never
holds the document as a value.  What it holds is the chain of arrays and objects
it is in, with the schema nodes of each, and what is due there.

A value is read in one of two ways.

* At an object or array node it is *visited*: containers are entered, numbers are
  converted and strings are decoded.  At most `maxOpen` containers are open.
* Everywhere else it is *skipped*.  At a scalar node its first byte then tells its
  kind, and its bytes have to be UTF-8.  At an `any` node, at an undeclared
  property and in an array without an item type nothing more is asked.

The walk ends at the first fault or violation.  A fault is placed by the byte
that shows it.  A violation is placed where the walk leaves the innermost visited
value around it: a visited scalar is left at its end, and a container after an
attempt to end it (`Container.tryEnd`).
-/

namespace Jstn

open Json (Cursor Position)

namespace Walk

/-- The end of the document after a value. -/
def finishEnded (outer : List Frame) (p : Position) : Except Rejection Unit :=
  match outer with
  | [] => .ok ()
  | frame :: _ => .error (.malformed frame.container.endFault p)

/-- A violation found at a cursor. -/
def Breach.reject (breach : Breach) (c : Cursor) : Rejection :=
  .mismatch breach.location breach.violation (breach.ending.place c)

/-- The end of the document. -/
def finish (s : State) (p : Position) : Except Rejection Unit :=
  match s.task with
  | .value _ | .nextItem .. | .nextKey .. | .word .. => .error (.malformed .endInValue p)
  | .skip purpose t =>
      match t.finish with
      | .error fault => .error (.malformed fault p)
      | .ok () =>
          match judge s.outer purpose with
          | .error (fault, position) => .error (.malformed fault position)
          | .ok (some breach) => .error (breach.reject ⟨p, []⟩)
          | .ok none => finishEnded s.outer p
  | .number node t =>
      match Json.Number.finish t with
      | .error fault => .error (.malformed fault p)
      | .ok _ => .error ((misplaced s.outer node .number).reject ⟨p, []⟩)
  | .string .. | .key .. => .error (.malformed .endInString p)
  | .ended => finishEnded s.outer p
  | .firstItem _ => .error (.malformed .endInArray p)
  | .firstKey _ | .colon .. => .error (.malformed .endInObject p)

/-- Walks the rest of a document. -/
def run (mode : Mode) (s : State) (p : Position) : List UInt8 → Except Rejection Unit
  | [] => finish s p
  | b :: rest =>
      match step mode s p b with
      | .more s => run mode s (p.after b) rest
      | .fault fault position => .error (.malformed fault position)
      | .breach breach taken =>
          .error (breach.reject (if taken then ⟨p.after b, rest⟩ else ⟨p, b :: rest⟩))
      | .trailing => .error (.trailingData (p.after b))

end Walk

end Jstn
