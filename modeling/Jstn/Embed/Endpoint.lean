import Jstn.Embed.Entries
import Jstn.Embed.SchemaText

/-!
# Documents with embedded schemas

An endpoint is a small document that carries schemas: a path, the schema of the
response and, optionally, a fallback schema.

It is read from an object.  The fields may stand in any order, none may stand
twice, and other members are skipped.  The fallback may be null or left out.  It
is also read from an array of the fields in order.

It is written as an object with all three fields in order and without blanks.
-/

namespace Jstn

open Json (Byte.openBrace Byte.openBracket Container Cursor)

/-- A path and the schemas that belong to it. -/
structure Endpoint where
  /-- The path. -/
  path : String
  /-- The schema of the response. -/
  response : Schema
  /-- The schema of what is sent instead of it. -/
  fallback : Option Schema
deriving DecidableEq, Inhabited

namespace Endpoint

open Embed

/-- The document of an endpoint. -/
def write (e : Endpoint) : String :=
  "\x7b\"path\":" ++ Json.Literal.encode e.path ++ ",\"response\":" ++ Embed.write e.response
    ++ ",\"fallback\":" ++ Embed.writeOptional e.fallback ++ "\x7d"

/-! ## Reading an object -/

/-- The fields that have been read. -/
structure Draft where
  /-- The path, if it has been read. -/
  path : Option String := none
  /-- The response, if it has been read. -/
  response : Option Schema := none
  /-- The fallback, which may be null, if it has been read. -/
  fallback : Option (Option Schema) := none
deriving Inhabited

/-- The endpoint of a draft, or the first field that it lacks. -/
def Draft.finish (d : Draft) (c : Cursor) : Except Failure Endpoint :=
  match d.path, d.response with
  | none, _ => .error (.floating (.missingField "path") c)
  | some _, none => .error (.floating (.missingField "response") c)
  | some path, some response => .ok ⟨path, response, d.fallback.join⟩

/-- Reads a field that may not have been read before. -/
def readOnce {α : Type} (name : String) (old : Option α) (reader : Cursor → Outcome α)
    (c : Cursor) : Outcome α :=
  if old.isSome then .error (.floating (.duplicateField name) c) else readAfterColon reader c

/-- Reads the member of a key. -/
def Draft.readMember (d : Draft) (key : String) (c : Cursor) : Outcome Draft :=
  if key = "path" then
    (readOnce key d.path readString c).map fun r => ({ d with path := some r.1 }, r.2)
  else if key = "response" then
    (readOnce key d.response readSchema c).map fun r => ({ d with response := some r.1 }, r.2)
  else if key = "fallback" then
    (readOnce key d.fallback readOptionalSchema c).map fun r =>
      ({ d with fallback := some r.1 }, r.2)
  else (readAfterColon skipValue c).map fun r => (d, r.2)

theorem within_readOnce {α : Type} {name : String} {old : Option α}
    {reader : Cursor → Outcome α} (hr : ∀ c a c', reader c = .ok (a, c') → Within c' c)
    {c c' : Cursor} {a : α} (h : readOnce name old reader c = .ok (a, c')) : Within c' c := by
  unfold readOnce at h
  split at h
  · cases h
  · exact within_readAfterColon hr h

theorem Draft.within_readMember {d d' : Draft} {key : String} {c c' : Cursor}
    (h : d.readMember key c = .ok (d', c')) : Within c' c := by
  unfold Draft.readMember at h
  split at h
  · exact within_map (fun _ _ => within_readOnce fun _ _ _ => within_readString) h
  · split at h
    · exact within_map (fun _ _ => within_readOnce fun _ _ _ => within_readSchema) h
    · split at h
      · exact within_map (fun _ _ => within_readOnce fun _ _ _ => within_readOptionalSchema) h
      · exact within_map (fun _ _ => within_readAfterColon fun _ _ _ => within_skipValue) h

/-- Reads the members of an object up to its end. -/
def readMembers (d : Draft) (first : Bool) (c : Cursor) : Outcome Draft :=
  match hk : readKey first c with
  | .error failure => .error failure
  | .ok (none, c') => .ok (d, c')
  | .ok (some key, c') =>
      match hm : d.readMember key c' with
      | .error failure => .error failure
      | .ok (d', c'') =>
          have : c''.rest.length < c.rest.length :=
            Nat.lt_of_le_of_lt (Draft.within_readMember hm) (shorter_readKey hk)
          readMembers d' false c''
termination_by c.rest.length

/-- Reads the contents of an object. -/
def readFields (c : Cursor) : Outcome Endpoint :=
  match readMembers {} true c with
  | .error failure => .error failure
  | .ok (d, c) => (d.finish c).map fun e => (e, c)

/-! ## Reading an array -/

/-- Reads the items of an array. -/
def readItems (c : Cursor) : Outcome Endpoint :=
  match readItem true readString c with
  | .error failure => .error failure
  | .ok (none, c) => .error (.floating (.tooShort 0) c)
  | .ok (some path, c) =>
      match readItem false readSchema c with
      | .error failure => .error failure
      | .ok (none, c) => .error (.floating (.tooShort 1) c)
      | .ok (some response, c) =>
          (readItem false readOptionalSchema c).map fun r => (⟨path, response, r.1.join⟩, r.2)

/-! ## Reading an endpoint -/

/-- Reads the contents of a container and its end. -/
def readInside (container : Container) (contents : Cursor → Outcome Endpoint) (c : Cursor) :
    Outcome Endpoint :=
  match contents c with
  | .error failure => .error (failure.leave container)
  | .ok (e, c) => (readEnd container c).map fun r => (e, r.2)

/-- Reads an endpoint. -/
def readValue (c : Cursor) : Outcome Endpoint :=
  let c := c.skipBlanks
  match c.rest with
  | [] => failPeek c .endInValue
  | b :: _ =>
      if b = Byte.openBrace then readInside .object readFields c.advance
      else if b = Byte.openBracket then readInside .array readItems c.advance
      else .error (wrongType .endpoint c)

/-- Reads JSON text that is one endpoint. -/
def read (text : List UInt8) : Except Error Endpoint := readWhole readValue text

end Endpoint

end Jstn
