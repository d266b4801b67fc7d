import Jstn.Json.Machine

/-!
# The words of JSON

`null`, `true` and `false` are known by their first byte.  The state of the
machine is the list of bytes that are still due.
-/

namespace Jstn

namespace Json

namespace Word

/-- The bytes of `null` after the first. -/
def null : List UInt8 := [0x75, 0x6C, 0x6C]

/-- The bytes of `true` after the first. -/
def true : List UInt8 := [0x72, 0x75, 0x65]

/-- The bytes of `false` after the first. -/
def false : List UInt8 := [0x61, 0x6C, 0x73, 0x65]

/-- The bytes due after the first byte of a word. -/
def ofFirst? (b : UInt8) : Option (List UInt8) :=
  if b = 0x6E then some null
  else if b = 0x74 then some true
  else if b = 0x66 then some false
  else none

/-- One byte of a word. -/
def step (due : List UInt8) (b : UInt8) : Reply (List UInt8) Unit :=
  match due with
  | [] => .stop ()
  | [d] => if b = d then .done () else .fail .expectedWord .past
  | d :: due => if b = d then .more due else .fail .expectedWord .past

/-- The end of the text inside a word. -/
def finish (_due : List UInt8) : Except Fault Unit := .error .endInValue

end Word

end Json

end Jstn
