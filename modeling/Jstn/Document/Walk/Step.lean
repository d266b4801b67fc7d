import Jstn.Document.Walk.State

/-!
# One byte of a walk

`step` says what each byte of a document does to the walk.  The definitions
before it follow a value backwards: what may come after it, how it ends, and how
it begins.
-/

namespace Jstn

open Json (Byte.isBlank Byte.quote Byte.comma Byte.colon Container Fault Position Skip Watch)

namespace Walk

/-- A violation of a value that is not visited leaves the container around it. -/
def endingAround : List Frame → Ending
  | [] => .nowhere
  | frame :: _ => .container frame.container

/-! ## Bytes after a value -/

/-- The first required property that has not been seen. -/
def missing? (properties : List (String × Schema)) (seen : List String) : Option String :=
  (properties.find? fun p => !p.2.optional && !seen.contains p.1).map Prod.fst

/-- The brace that closes an object.  It is not taken if a property is missing. -/
def closeObject (outer : List Frame) (properties : List (String × Schema)) (seen : List String) :
    Reply :=
  match missing? properties seen with
  | some name => .breach ⟨location outer, .missing name, .container .object⟩ false
  | none => .more ⟨outer, .ended⟩

/-- A byte after a value and its blanks. -/
def stepEnded (outer : List Frame) (p : Position) (b : UInt8) : Reply :=
  if Byte.isBlank b then .more ⟨outer, .ended⟩
  else
    match outer with
    | [] => .trailing
    | .array items index :: outer =>
        if b = Container.array.closing then .more ⟨outer, .ended⟩
        else if b = Byte.comma then .more ⟨outer, .nextItem items (index + 1)⟩
        else .fault .expectedCommaOrBracket (p.after b)
    | .object properties seen name :: outer =>
        let seen := name :: seen
        if b = Container.object.closing then closeObject outer properties seen
        else if b = Byte.comma then .more ⟨outer, .nextKey properties seen⟩
        else .fault .expectedCommaOrBrace (p.after b)

/-! ## The end of a value -/

/-- What comes of a skipped value that has ended. -/
def judge (outer : List Frame) (purpose : Purpose) : Except (Fault × Position) (Option Breach) :=
  match purpose with
  | .ignore => .ok none
  | .untypedItem =>
      -- The complaint is about the array around the item.
      .ok (some ⟨location outer.tail, .untypedItem, endingAround outer⟩)
  | .scalar kind optional first watch =>
      match watch with
      | .broken position => .error (.invalidUnicode, position)
      | .sound .. =>
          .ok ((kind.violation? optional (kindOfFirst first)).map fun violation =>
            ⟨location outer, violation, endingAround outer⟩)
where
  /-- The kind of a value that begins with a byte. -/
  kindOfFirst (b : UInt8) : Kind :=
    if b = 0x6E then .null
    else if b = Byte.quote then .string
    else if b = 0x74 ∨ b = 0x66 then .boolean
    else
      match Container.ofOpening? b with
      | some .array => .array
      | some .object => .object
      | none => .number

/-- A scalar at a node that describes a container. -/
def misplaced (outer : List Frame) (node : Schema) (found : Kind) : Breach :=
  ⟨location outer, .wrongKind node.kind found, .here⟩

/-- Goes on after a skipped value, at the byte that ended it or before it. -/
def endSkip (outer : List Frame) (purpose : Purpose) (taken : Bool) (p : Position) (b : UInt8) :
    Reply :=
  match judge outer purpose with
  | .error (fault, position) => .fault fault position
  | .ok (some breach) => .breach breach taken
  | .ok none => if taken then .more ⟨outer, .ended⟩ else stepEnded outer p b

/-! ## The beginning of a value -/

/-- A byte of a value that is skipped. -/
def stepSkip (outer : List Frame) (purpose : Purpose) (s : Skip) (p : Position) (b : UInt8) :
    Reply :=
  match s.step b with
  | .more s => .more ⟨outer, .skip (fed purpose) s⟩
  | .done () => endSkip outer (fed purpose) true p b
  | .stop () => endSkip outer purpose false p b
  | .fail fault side => .fault fault (side.place p b)
where
  /-- The purpose after the byte. -/
  fed : Purpose → Purpose
    | .scalar kind optional first watch => .scalar kind optional first (watch.feed p b)
    | purpose => purpose

/-- The greatest number of visited containers that are open at once. -/
def maxOpen : Nat := 127

/-- The first byte of a value that is visited. -/
def beginVisit (outer : List Frame) (node : Schema) (p : Position) (b : UInt8) : Reply :=
  if b = Byte.quote then .more ⟨outer, .string node .start⟩
  else
    match Json.Word.ofFirst? b, Json.Number.ofFirst? b, Container.ofOpening? b with
    | some due, _, _ =>
        .more ⟨outer, .word node (if b = 0x6E then .null else .boolean) due⟩
    | none, some s, _ => .more ⟨outer, .number node s⟩
    | none, none, some container =>
        if maxOpen ≤ outer.length then .fault .tooDeep (p.after b)
        else
          match container, node.kind with
          | .array, .array => .more ⟨outer, .firstItem node.items⟩
          | .object, .object => .more ⟨outer, .firstKey node.properties⟩
          | .array, kind =>
              .breach ⟨location outer, .wrongKind kind .array, .container .array⟩ true
          | .object, kind =>
              .breach ⟨location outer, .wrongKind kind .object, .container .object⟩ true
    | none, none, none => .fault .expectedValue (p.after b)

/-- The first byte of a value, which is no blank. -/
def beginValue (outer : List Frame) (node : Schema) (p : Position) (b : UInt8) : Reply :=
  match node.kind with
  | .any => stepSkip outer .ignore .start p b
  | .object | .array => beginVisit outer node p b
  | kind => stepSkip outer (.scalar kind node.optional b (.sound .boundary p)) .start p b

/-- Whether a mode allows values at a node. -/
def refuses (mode : Mode) (node : Schema) : Bool := mode = .strict && node.kind = .any

/-- The first byte of an item. -/
def beginItem (mode : Mode) (outer : List Frame) (items : Option Schema) (index : Nat)
    (p : Position) (b : UInt8) : Reply :=
  let inner := .array items index :: outer
  match items with
  | none => stepSkip inner .untypedItem .start p b
  | some node =>
      if refuses mode node then .breach ⟨location inner, .anyInStrict, endingAround inner⟩ false
      else beginValue inner node p b

/-- The end of a key.  An undeclared property is as one of type `any`. -/
def endKey (mode : Mode) (outer : List Frame) (properties : List (String × Schema))
    (seen : List String) (decoded : List UInt8) (p : Position) : Reply :=
  match Json.Literal.text decoded p with
  | .error (fault, position) => .fault fault position
  | .ok name =>
      match NameMap.find? name properties, mode with
      | some node, _ => .more ⟨outer, .colon properties seen name node⟩
      | none, .lenient => .more ⟨outer, .colon properties seen name .any⟩
      | none, .strict =>
          .breach ⟨location outer, .undeclared name, .container .object⟩ true

/-- A byte where a key is due. -/
def beginKey (outer : List Frame) (properties : List (String × Schema)) (seen : List String)
    (p : Position) (b : UInt8) : Reply :=
  if b = Byte.quote then .more ⟨outer, .key properties seen .start⟩
  else .fault .keyNotString (p.after b)

/-! ## The step -/

/-- One byte of the document, which stands at position `p`. -/
def step (mode : Mode) (s : State) (p : Position) (b : UInt8) : Reply :=
  match s.task with
  | .value node => if Byte.isBlank b then .more s else beginValue s.outer node p b
  | .skip purpose t => stepSkip s.outer purpose t p b
  | .word node found due =>
      match Json.Word.step due b with
      | .more due => .more ⟨s.outer, .word node found due⟩
      | .done () => .breach (misplaced s.outer node found) true
      | .stop () => .breach (misplaced s.outer node found) false
      | .fail fault side => .fault fault (side.place p b)
  | .number node t =>
      match Json.Number.step t b with
      | .more t => .more ⟨s.outer, .number node t⟩
      | .done _ => .breach (misplaced s.outer node .number) true
      | .stop _ => .breach (misplaced s.outer node .number) false
      | .fail fault side => .fault fault (side.place p b)
  | .string node t =>
      match t.step b with
      | .more t => .more ⟨s.outer, .string node t⟩
      | .done decoded | .stop decoded =>
          match Json.Literal.text decoded (p.after b) with
          | .error (fault, position) => .fault fault position
          | .ok _ => .breach (misplaced s.outer node .string) true
      | .fail fault side => .fault fault (side.place p b)
  | .ended => stepEnded s.outer p b
  | .firstItem items =>
      if Byte.isBlank b then .more s
      else if b = Container.array.closing then .more ⟨s.outer, .ended⟩
      else beginItem mode s.outer items 0 p b
  | .nextItem items index =>
      if Byte.isBlank b then .more s
      else if b = Container.array.closing then .fault .trailingComma (p.after b)
      else beginItem mode s.outer items index p b
  | .firstKey properties =>
      if Byte.isBlank b then .more s
      else if b = Container.object.closing then closeObject s.outer properties []
      else beginKey s.outer properties [] p b
  | .nextKey properties seen =>
      if Byte.isBlank b then .more s
      else if b = Container.object.closing then .fault .trailingComma (p.after b)
      else beginKey s.outer properties seen p b
  | .key properties seen t =>
      match t.step b with
      | .more t => .more ⟨s.outer, .key properties seen t⟩
      | .done decoded | .stop decoded =>
          endKey mode s.outer properties seen decoded (p.after b)
      | .fail fault side => .fault fault (side.place p b)
  | .colon properties seen name node =>
      if Byte.isBlank b then .more s
      else if b = Byte.colon then
        let inner := .object properties seen name :: s.outer
        if refuses mode node then .breach ⟨location inner, .anyInStrict, endingAround inner⟩ true
        else .more ⟨inner, .value node⟩
      else .fault .expectedColon (p.after b)

end Walk

end Jstn
