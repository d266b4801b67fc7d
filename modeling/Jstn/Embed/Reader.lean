import Jstn.Embed.Error
import Jstn.Json.Container
import Jstn.Json.Literal
import Jstn.Json.Word

/-!
# Readers of JSON text

The pieces that the readers of schemas, kinds and endpoints are made of.  A
reader takes a cursor and gives what it read with the cursor after it.  None
leaves more unread than it was given.
-/

namespace Jstn

open Json (Byte.quote Byte.colon Container Cursor Fault Position drive)

namespace Embed

/-- The result of a reader. -/
abbrev Outcome (α : Type) := Except Failure (α × Cursor)

/-- A failure with a fault that points at the next byte. -/
def failPeek {α : Type} (c : Cursor) (fault : Fault) : Except Failure α :=
  .error (.ofFault (c.peek fault))

/-- The outcome of a machine. -/
def lift {α : Type} (r : Except (Fault × Position) (α × Cursor)) : Outcome α :=
  r.mapError Failure.ofFault

/-- The failure over a value that is not what the reader asks for.  A scalar is
read to its end, and of a container nothing is. -/
def wrongType (target : Target) (c : Cursor) : Failure :=
  match c.rest with
  | [] => .ofFault (c.peek .endInValue)
  | b :: _ =>
      let c' := c.advance
      if b = Byte.quote then
        scalar ((Json.Literal.read c').map fun r => (.string r.1, r.2))
      else
        match Json.Word.ofFirst? b, Json.Number.ofFirst? b, Container.ofOpening? b with
        | some due, _, _ =>
            let found : Foreign :=
              if b = 0x6E then .null else .boolean (b = 0x74)
            scalar ((drive Json.Word.step Json.Word.finish due c'.position c'.rest).map
              fun r => (found, r.2))
        | none, some s, _ =>
            scalar ((drive Json.Number.step Json.Number.finish s c'.position c'.rest).map
              fun r => (.number r.1, r.2))
        | none, none, some .array => .placed (.wrongType .sequence target) c.position
        | none, none, some .object => .placed (.wrongType .map target) c.position
        | none, none, none => .ofFault (c.peek .expectedValue)
where
  /-- The failure over a scalar. -/
  scalar (r : Except (Fault × Position) (Foreign × Cursor)) : Failure :=
    match r with
    | .ok (found, c) => .placed (.wrongType found target) c.position
    | .error e => .ofFault e

/-- Reads a string literal. -/
def readString (c : Cursor) : Outcome String :=
  let c := c.skipBlanks
  match c.rest with
  | [] => failPeek c .endInValue
  | b :: _ =>
      if b = Byte.quote then lift (Json.Literal.read c.advance)
      else .error (wrongType .string c)

/-- Reads a null. -/
def readNull (target : Target) (c : Cursor) : Outcome Unit :=
  let c := c.skipBlanks
  match c.rest with
  | [] => failPeek c .endInValue
  | b :: _ =>
      if b = 0x6E then
        let c := c.advance
        lift (drive Json.Word.step Json.Word.finish Json.Word.null c.position c.rest)
      else .error (wrongType target c)

/-- Whether the next value is a null, as far as its first byte tells. -/
def atNull (c : Cursor) : Bool := c.skipBlanks.rest.head? = some 0x6E

/-- Reads the colon after a key. -/
def readColon (c : Cursor) : Outcome Unit :=
  let c := c.skipBlanks
  match c.rest with
  | [] => failPeek c .endInObject
  | b :: _ => if b = Byte.colon then .ok ((), c.advance) else failPeek c .expectedColon

/-- Reads a whole text, after which only blanks may come. -/
def readWhole {α : Type} (reader : Cursor → Outcome α) (text : List UInt8) : Except Error α :=
  match reader (.ofBytes text) with
  | .error failure => .error failure.toError
  | .ok (a, c) =>
      let c := c.skipBlanks
      match c.rest with
      | [] => .ok a
      | _ :: _ => .error (Failure.ofFault (c.peek .trailingCharacters)).toError

/-! ## What is left unread -/

/-- A cursor has no more unread bytes than another. -/
def Within (c' c : Cursor) : Prop := c'.rest.length ≤ c.rest.length

theorem Within.trans {c₁ c₂ c₃ : Cursor} (h : Within c₁ c₂) (h' : Within c₂ c₃) : Within c₁ c₃ :=
  Nat.le_trans h h'

theorem within_skipBlanks (c : Cursor) : Within c.skipBlanks c := c.length_skipBlanks

theorem within_advance (c : Cursor) : Within c.advance c := c.length_advance

theorem within_lift {α : Type} {r : Except (Fault × Position) (α × Cursor)} {c c' : Cursor} {a : α}
    (hr : ∀ a c', r = .ok (a, c') → Within c' c) (h : lift r = .ok (a, c')) : Within c' c := by
  cases r with
  | error e => cases h
  | ok r => exact hr a c' (congrArg Except.ok (Except.ok.inj h))

theorem within_drive {σ α : Type} {step : σ → UInt8 → Json.Reply σ α}
    {finish : σ → Except Fault α} {s : σ} {c c' : Cursor} {a : α}
    (h : drive step finish s c.position c.rest = .ok (a, c')) : Within c' c :=
  Json.length_drive h

theorem within_readLiteral {c c' : Cursor} {text : String}
    (h : Json.Literal.read c = .ok (text, c')) : Within c' c := by
  unfold Json.Literal.read at h
  split at h
  next decoded c'' hd =>
    split at h
    · obtain ⟨-, rfl⟩ := Prod.mk.inj (Except.ok.inj h)
      exact within_drive hd
    · cases h
  · cases h

theorem within_readString {c c' : Cursor} {text : String} (h : readString c = .ok (text, c')) :
    Within c' c := by
  unfold readString at h
  dsimp only at h
  split at h
  · cases h
  · split at h
    · exact (within_lift (fun _ _ => within_readLiteral) h).trans
        ((within_advance _).trans (within_skipBlanks c))
    · cases h

theorem within_readNull {target : Target} {c c' : Cursor} {u : Unit}
    (h : readNull target c = .ok (u, c')) : Within c' c := by
  unfold readNull at h
  dsimp only at h
  split at h
  · cases h
  · split at h
    · exact (within_lift (fun _ _ => within_drive) h).trans
        ((within_advance _).trans (within_skipBlanks c))
    · cases h

theorem within_readColon {c c' : Cursor} {u : Unit} (h : readColon c = .ok (u, c')) :
    Within c' c := by
  unfold readColon at h
  dsimp only at h
  split at h
  · cases h
  · split at h
    · obtain ⟨-, rfl⟩ := Prod.mk.inj (Except.ok.inj h)
      exact (within_advance _).trans (within_skipBlanks c)
    · cases h

end Embed

end Jstn
