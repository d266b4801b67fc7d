import Jstn.Parse

/-!
# Reading schema text by descent

The grammar as readers that call each other, one for each production.  They share a place in
the text: what has not been scanned, what has been put back, and how many brackets are open.
The machine of `Jstn.Parse` takes the same text one lexeme at a time and keeps the open
productions on its stack.

A reader that has looked at one lexeme too many puts it back.  There is room for one, and to
put back a second is a fault of the readers, not of the text (`Halt.slotTaken`).

The readers that call each other get a number of rounds.  What is inside a bracket or after a
property is read with one less, and the outcome of a reader that has none left is `none`.  So
that is what a reader comes to that goes on forever, with any number of rounds.
-/

namespace Jstn

namespace Parse

namespace Descent

/-- What a scan finds.  It is none at the end of the text. -/
abbrev Found := Option Lexeme

/-- A place in schema text. -/
structure Place where
  /-- The text that has not been scanned. -/
  scanner : Scanner
  /-- What has been put back, which is read before anything else. -/
  slot : Option Found
  /-- The number of open brackets. -/
  depth : Nat

/-- Why a reader gives up. -/
inductive Halt
  /-- The text is refused. -/
  | refused (e : ParseError)
  /-- A second lexeme is put back. -/
  | slotTaken
deriving DecidableEq

/-- A reader moves on in the text and gives a result, or it gives up. -/
abbrev Reads (α : Type) := StateT Place (ExceptT Halt Option) α

/-- The start of a text. -/
def Place.ofSource (source : String) : Place := ⟨.ofSource source, none, 0⟩

/-- The text is refused. -/
def refuse {α : Type} (e : ParseError) : Reads α := throw (.refused e)

/-- There is no round left. -/
def unfinished {α : Type} : Reads α := fun _ => none

/-! ## Lexemes -/

namespace Place

/-- Takes what has been put back, or else the next lexeme of the text. -/
def scan (p : Place) : Found × Place :=
  match p.slot with
  | some found => (found, { p with slot := none })
  | none => (p.scanner.scan.1, { p with scanner := p.scanner.scan.2 })

/-- How much may still be scanned, at the most. -/
def ahead (p : Place) : Nat := p.slot.toList.length + p.scanner.rest.length

/-- A scan that finds a lexeme leaves less to scan. -/
theorem scan_shorter {p p' : Place} {l : Lexeme} (h : p.scan = (some l, p')) :
    p'.ahead < p.ahead := by
  obtain ⟨scanner, slot, depth⟩ := p
  cases slot with
  | some found =>
      obtain ⟨-, rfl⟩ := Prod.mk.inj h
      exact Nat.add_lt_add_right Nat.zero_lt_one _
  | none =>
      obtain ⟨hfound, rfl⟩ := Prod.mk.inj h
      exact Nat.add_lt_add_left (Scanner.scan_shorter (Prod.ext hfound rfl)) 0

/-- Takes the next lexeme that means something.  Line breaks do where `breaksCount` holds. -/
def scanSignificant (breaksCount : Bool) (p : Place) : Found × Place :=
  match h : p.scan with
  | (some (.token token text span), p') =>
      have := scan_shorter h
      if token.isTrivia breaksCount then p'.scanSignificant breaksCount
      else (some (.token token text span), p')
  | (found, p') => (found, p')
termination_by p.ahead

end Place

/-- Takes the next lexeme that means something. -/
def scanSignificant (breaksCount : Bool) : Reads Found :=
  modifyGet fun place => place.scanSignificant breaksCount

/-- Puts back what has been found. -/
def unscan (found : Found) : Reads Unit := do
  let place ← get
  match place.slot with
  | some _ => throw .slotTaken
  | none => set { place with slot := some found }

/-- The error of what stands where something else is asked for. -/
def unexpected (expected : Expectation) : Found → ParseError
  | none => .unexpectedEnd expected
  | some (.illegal char span) => .illegalCharacter char span
  | some found => .unexpectedToken expected found

/-- Takes a token that has to stand here. -/
def expect (token : Token) : Reads Unit := do
  let found ← scanSignificant false
  if found.bind Lexeme.token? = some token then return ()
  else refuse (unexpected (.token token) found)

/-- Goes inside a bracket, if there is room for it. -/
def enter (span : Span) : Reads Unit := do
  let place ← get
  if place.depth = maxDepth then refuse (.tooDeep maxDepth span)
  else set { place with depth := place.depth + 1 }

/-- Goes outside again. -/
def leave : Reads Unit := modify fun place => { place with depth := place.depth - 1 }

/-! ## Productions -/

/-- Reads the end of a property.  A closing bracket ends it too, but is no part of it. -/
def readPropertyEnd (name : String) : Reads Unit := do
  let found ← scanSignificant true
  match found with
  | some (.token .semicolon _ _) | some (.token .newline _ _) => return ()
  | some (.token .closeBrace _ _) => unscan found
  | some (.token token text span) => refuse (.unendedProperty name (.token token text span))
  | _ => refuse (unexpected .propertyEnd found)

mutual

/-- Reads a declaration and, on the same line, its mark. -/
def readType (rounds : Nat) : Reads Schema := do
  let t ← readDeclaration rounds
  let next ← scanSignificant true
  match next with
  | some (.token .question _ _) => return t.asOptional
  | _ =>
      unscan next
      return t
termination_by (rounds, 1)

/-- Reads a declaration. -/
def readDeclaration : Nat → Reads Schema
  | 0 => unfinished
  | rounds + 1 => do
      let found ← scanSignificant false
      match found with
      | some (.token .openBracket _ span) =>
          enter span
          let t ← readArray rounds
          leave
          return t
      | some (.token .openBrace _ span) =>
          enter span
          let t ← readProperties rounds []
          leave
          return t
      | some (.token token _ _) =>
          match token.kind? with
          | some kind => return .ofKind kind
          | none => refuse (unexpected .type found)
      | _ => refuse (unexpected .type found)
termination_by rounds => (rounds, 0)

/-- Reads an array after its bracket. -/
def readArray (rounds : Nat) : Reads Schema := do
  let next ← scanSignificant false
  match next with
  | some (.token .closeBracket _ _) => return .emptyArray
  | _ =>
      unscan next
      let items ← readType rounds
      expect .closeBracket
      return .array items
termination_by (rounds, 2)

/-- Reads the properties of an object that come after those that are `done`. -/
def readProperties : Nat → List (String × Schema) → Reads Schema
  | 0, _ => unfinished
  | rounds + 1, done => do
      let found ← scanSignificant false
      match found with
      | some (.token .closeBrace _ _) => return { kind := .object, properties := done }
      | some (.token .identifier name _) =>
          expect .colon
          let t ← readType (rounds + 1)
          readPropertyEnd name
          readProperties rounds (NameMap.insert name t done)
      | _ => refuse (unexpected .property found)
termination_by rounds => (rounds, 2)

end

/-- Reads an object after its bracket. -/
def readObject (rounds : Nat) : Reads Schema := readProperties rounds []

/-- Reads a whole text. -/
def readSchema (rounds : Nat) : Reads Schema := do
  let t ← readType rounds
  let found ← scanSignificant false
  match found with
  | none => return t
  | some (.illegal char span) => refuse (.illegalCharacter char span)
  | some found => refuse (.trailingInput found)

/-- Reads a text from its start. -/
def read (rounds : Nat) (source : String) : Option (Except Halt Schema) :=
  ((readSchema rounds).run' (.ofSource source)).run

end Descent

end Parse

end Jstn
