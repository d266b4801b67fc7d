import Jstn.Json.Container
import Jstn.Json.Literal
import Jstn.Json.Number
import Jstn.Json.Word

/-!
# Skipping a value

A value that nobody looks into is skipped: its syntax is checked, and nothing is
converted or decoded.  The machine keeps the containers it is in on a stack, so
values may nest to any depth.

Inside a container it tries the closing bracket whenever no entry is due, which
is after the opening bracket and after an entry, but not after a comma.
-/

namespace Jstn

namespace Json

/-- What is due inside the containers around it. -/
inductive SkipPoint
  /-- A value. -/
  | value
  /-- The rest of a word. -/
  | word (due : List UInt8)
  /-- More of a number, or whatever follows it. -/
  | number (phase : Number.Phase)
  /-- More of a string. -/
  | string (s : Literal.Skip)
  /-- The first entry of a container, or its end. -/
  | first (container : Container)
  /-- A comma after an entry of a container, or its end. -/
  | after (container : Container)
  /-- A key after a comma. -/
  | key
  /-- More of a key. -/
  | keyText (s : Literal.Skip)
  /-- The colon after a key. -/
  | colon
deriving DecidableEq, Repr, Inhabited

/-- A value that is being skipped. -/
structure Skip where
  /-- The containers around what is due, innermost first.  The container that
  `first`, `after` and the parts of a member speak of is not among them. -/
  outer : List Container
  /-- What is due. -/
  point : SkipPoint
deriving DecidableEq, Repr, Inhabited

namespace Skip

/-- The state before a value. -/
def start : Skip := ⟨[], .value⟩

/-- The state after a value has ended, or nothing if it was the whole. -/
def ended? : List Container → Option Skip
  | [] => none
  | container :: outer => some ⟨outer, .after container⟩

/-- The byte is taken and ends a value. -/
def closeOn (outer : List Container) : Reply Skip Unit :=
  match ended? outer with
  | some s => .more s
  | none => .done ()

/-- The first byte of a value. -/
def stepValue (outer : List Container) (b : UInt8) : Reply Skip Unit :=
  if Byte.isBlank b then .more ⟨outer, .value⟩
  else if b = Byte.quote then .more ⟨outer, .string .plain⟩
  else
    match Word.ofFirst? b, Number.Phase.ofFirst? b, Container.ofOpening? b with
    | some due, _, _ => .more ⟨outer, .word due⟩
    | none, some phase, _ => .more ⟨outer, .number phase⟩
    | none, none, some container => .more ⟨outer, .first container⟩
    | none, none, none => .fail .expectedValue .past

/-- A byte where a key is due. -/
def stepKey (outer : List Container) (b : UInt8) : Reply Skip Unit :=
  if Byte.isBlank b then .more ⟨outer, .key⟩
  else if b = Byte.quote then .more ⟨outer, .keyText .plain⟩
  else .fail .keyNotString .past

/-- A byte where the first entry of a container is due. -/
def stepFirst (outer : List Container) (container : Container) (b : UInt8) : Reply Skip Unit :=
  if Byte.isBlank b then .more ⟨outer, .first container⟩
  else if b = container.closing then closeOn outer
  else
    match container with
    | .array => stepValue (.array :: outer) b
    | .object => stepKey outer b

/-- A byte after an entry of a container. -/
def stepAfter (outer : List Container) (container : Container) (b : UInt8) : Reply Skip Unit :=
  if Byte.isBlank b then .more ⟨outer, .after container⟩
  else if b = container.closing then closeOn outer
  else if b = Byte.comma then
    match container with
    | .array => .more ⟨.array :: outer, .value⟩
    | .object => .more ⟨outer, .key⟩
  else .fail container.commaFault .past

/-- A byte that comes after a value and does not belong to it. -/
def stepEnded (outer : List Container) (b : UInt8) : Reply Skip Unit :=
  match outer with
  | [] => .stop ()
  | container :: outer => stepAfter outer container b

/-- One byte of a value that is skipped. -/
def step (s : Skip) (b : UInt8) : Reply Skip Unit :=
  match s.point with
  | .value => stepValue s.outer b
  | .word due =>
      match Word.step due b with
      | .more due => .more ⟨s.outer, .word due⟩
      | .done () => closeOn s.outer
      | .stop () => stepEnded s.outer b
      | .fail fault side => .fail fault side
  | .number phase =>
      match phase.step b with
      | .more phase => .more ⟨s.outer, .number phase⟩
      | .done () => closeOn s.outer
      | .stop () => stepEnded s.outer b
      | .fail fault side => .fail fault side
  | .string t =>
      match t.step b with
      | .more t => .more ⟨s.outer, .string t⟩
      | .done () => closeOn s.outer
      | .stop () => stepEnded s.outer b
      | .fail fault side => .fail fault side
  | .first container => stepFirst s.outer container b
  | .after container => stepAfter s.outer container b
  | .key => stepKey s.outer b
  | .keyText t =>
      match t.step b with
      | .more t => .more ⟨s.outer, .keyText t⟩
      | .done () | .stop () => .more ⟨s.outer, .colon⟩
      | .fail fault side => .fail fault side
  | .colon =>
      if Byte.isBlank b then .more s
      else if b = Byte.colon then .more ⟨.object :: s.outer, .value⟩
      else .fail .expectedColon .past

/-- The end of the text after a value. -/
def finishEnded : List Container → Except Fault Unit
  | [] => .ok ()
  | container :: _ => .error container.endFault

/-- The end of the text after or inside a value. -/
def finish (s : Skip) : Except Fault Unit :=
  match s.point with
  | .value | .word _ => .error .endInValue
  | .number phase => if phase.isComplete then finishEnded s.outer else .error .invalidNumber
  | .string _ | .keyText _ => .error .endInString
  | .first container | .after container => .error container.endFault
  | .key | .colon => .error .endInObject

/-- Skips one value. -/
def run (c : Cursor) : Except (Fault × Position) Cursor :=
  match drive step finish start c.position c.rest with
  | .ok ((), c) => .ok c
  | .error e => .error e

end Skip

end Json

end Jstn
