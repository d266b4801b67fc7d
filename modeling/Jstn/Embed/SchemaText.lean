import Jstn.Embed.Reader
import Jstn.Parse
import Jstn.Print

/-!
# Schemas as JSON strings

A schema stands in a JSON document as a string literal that holds its text.  The
canonical text is written, and any text that `parse` reads is read.  An optional
schema may also be absent, which is a null.
-/

namespace Jstn

open Json (Cursor)

namespace Embed

/-- The literal that stands for a schema. -/
def write (t : Schema) : String := Json.Literal.encode t.canonical

/-- The literal that stands for a schema, or a null. -/
def writeOptional : Option Schema → String
  | some t => write t
  | none => "null"

/-- Reads a string that holds the text of a schema. -/
def readSchema (c : Cursor) : Outcome Schema :=
  match readString c with
  | .error failure => .error failure
  | .ok (text, c) =>
      match parse text with
      | .ok t => .ok (t, c)
      | .error e => .error (.floating (.schema e) c)

/-- Reads a null, or a string that holds the text of a schema. -/
def readOptionalSchema (c : Cursor) : Outcome (Option Schema) :=
  if atNull c then (readNull .string c).map fun r => (none, r.2)
  else (readSchema c).map fun r => (some r.1, r.2)

/-- Reads JSON text that is one embedded schema. -/
def read (text : List UInt8) : Except Error Schema := readWhole readSchema text

/-- Reads JSON text that is one embedded schema, or a null. -/
def readOptional (text : List UInt8) : Except Error (Option Schema) :=
  readWhole readOptionalSchema text

theorem within_readSchema {c c' : Cursor} {t : Schema} (h : readSchema c = .ok (t, c')) :
    Within c' c := by
  unfold readSchema at h
  split at h
  · cases h
  next hs =>
    split at h
    · obtain ⟨-, rfl⟩ := Prod.mk.inj (Except.ok.inj h)
      exact within_readString hs
    · cases h

theorem within_readOptionalSchema {c c' : Cursor} {t : Option Schema}
    (h : readOptionalSchema c = .ok (t, c')) : Within c' c := by
  unfold readOptionalSchema at h
  split at h
  · cases hn : readNull .string c with
    | error e => rw [hn] at h; cases h
    | ok r =>
        rw [hn] at h
        obtain ⟨-, rfl⟩ := Prod.mk.inj (Except.ok.inj h)
        exact within_readNull hn
  · cases hs : readSchema c with
    | error e => rw [hs] at h; cases h
    | ok r =>
        rw [hs] at h
        obtain ⟨-, rfl⟩ := Prod.mk.inj (Except.ok.inj h)
        exact within_readSchema hs

end Embed

end Jstn
