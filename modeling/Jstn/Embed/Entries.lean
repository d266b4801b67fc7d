import Jstn.Embed.Reader
import Jstn.Json.Skip

/-!
# Entries of containers

The steps by which a reader goes through an object or an array: the next key or
item, the colon and the value after a key, and the end.  The closing bracket is
seen where an entry could begin and taken at the end only.

A key takes at least one byte (`shorter_readKey`), so a reader that goes from key
to key comes to an end.
-/

namespace Jstn

open Json (Byte.quote Byte.comma Container Cursor)

namespace Embed

/-! ## Objects -/

/-- Reads a key from its opening quote on. -/
def readKeyText (c : Cursor) : Outcome (Option String) :=
  match c.rest with
  | [] => failPeek c .endInValue
  | b :: _ =>
      if b = Byte.quote then
        (lift (Json.Literal.read c.advance)).map fun r => (some r.1, r.2)
      else failPeek c .keyNotString

/-- Reads the next key of an object.  At its end, which is not taken, there is
none. -/
def readKey (first : Bool) (c : Cursor) : Outcome (Option String) :=
  let c := c.skipBlanks
  match c.rest with
  | [] => failPeek c .endInObject
  | b :: _ =>
      if b = Container.object.closing then .ok (none, c)
      else if first then readKeyText c
      else if b = Byte.comma then
        let c := c.advance.skipBlanks
        match c.rest with
        | [] => failPeek c .endInValue
        | b :: _ =>
            if b = Container.object.closing then failPeek c .trailingComma else readKeyText c
      else failPeek c .expectedCommaOrBrace

/-- Reads a colon and what `reader` reads after it. -/
def readAfterColon {α : Type} (reader : Cursor → Outcome α) (c : Cursor) : Outcome α :=
  match readColon c with
  | .error failure => .error failure
  | .ok ((), c) => reader c

/-- Skips a value. -/
def skipValue (c : Cursor) : Outcome Unit := lift ((Json.Skip.run c).map fun c => ((), c))

/-! ## Arrays -/

/-- Whether an array has a next item.  Its end is not taken, and the comma before
the item is. -/
def readItemStart (first : Bool) (c : Cursor) : Outcome Bool :=
  let c := c.skipBlanks
  match c.rest with
  | [] => failPeek c .endInArray
  | b :: _ =>
      if b = Container.array.closing then .ok (false, c)
      else if first then .ok (true, c)
      else if b = Byte.comma then
        let c := c.advance.skipBlanks
        match c.rest with
        | [] => failPeek c .endInValue
        | b :: _ =>
            if b = Container.array.closing then failPeek c .trailingComma else .ok (true, c)
      else failPeek c .expectedCommaOrBracket

/-- Reads the next item of an array, if there is one. -/
def readItem {α : Type} (first : Bool) (reader : Cursor → Outcome α) (c : Cursor) :
    Outcome (Option α) :=
  match readItemStart first c with
  | .error failure => .error failure
  | .ok (false, c) => .ok (none, c)
  | .ok (true, c) => (reader c).map fun r => (some r.1, r.2)

/-! ## Ends -/

/-- Reads the end of a container whose contents have been read. -/
def readEnd (container : Container) (c : Cursor) : Outcome Unit :=
  let c := c.skipBlanks
  match c.rest with
  | [] => failPeek c container.endFault
  | b :: _ =>
      if b = container.closing then .ok ((), c.advance)
      else if b = Byte.comma then
        match container with
        | .array =>
            let c := c.advance.skipBlanks
            failPeek c (if c.rest.head? = some container.closing then .trailingComma
              else .trailingCharacters)
        | .object => failPeek c .trailingComma
      else failPeek c .trailingCharacters

/-! ## What is left unread -/

theorem length_advance_lt {c : Cursor} {b : UInt8} {rest : List UInt8} (h : c.rest = b :: rest) :
    c.advance.rest.length < c.rest.length := by
  match c, h with
  | ⟨_, _ :: _⟩, rfl => exact Nat.lt_succ_self _

theorem shorter_readKeyText {c c' : Cursor} {key : String}
    (h : readKeyText c = .ok (some key, c')) : c'.rest.length < c.rest.length := by
  unfold readKeyText at h
  split at h
  · cases h
  next hb =>
    split at h
    · cases hl : lift (Json.Literal.read c.advance) with
      | error e => rw [hl] at h; cases h
      | ok r =>
          rw [hl] at h
          obtain ⟨-, rfl⟩ := Prod.mk.inj (Except.ok.inj h)
          exact Nat.lt_of_le_of_lt (within_lift (fun _ _ => within_readLiteral) hl)
            (length_advance_lt hb)
    · cases h

/-- A key takes at least its opening quote. -/
theorem shorter_readKey {first : Bool} {c c' : Cursor} {key : String}
    (h : readKey first c = .ok (some key, c')) : c'.rest.length < c.rest.length := by
  unfold readKey at h
  dsimp only at h
  split at h
  · cases h
  · split at h
    · cases (Prod.mk.inj (Except.ok.inj h)).1
    · split at h
      · exact Nat.lt_of_lt_of_le (shorter_readKeyText h) (within_skipBlanks c)
      · split at h
        · split at h
          · cases h
          · split at h
            · cases h
            · exact Nat.lt_of_lt_of_le (shorter_readKeyText h)
                (((within_skipBlanks _).trans (within_advance _)).trans (within_skipBlanks c))
        · cases h

theorem within_readAfterColon {α : Type} {reader : Cursor → Outcome α}
    (hr : ∀ c a c', reader c = .ok (a, c') → Within c' c) {c c' : Cursor} {a : α}
    (h : readAfterColon reader c = .ok (a, c')) : Within c' c := by
  unfold readAfterColon at h
  split at h
  · cases h
  next hc => exact (hr _ _ _ h).trans (within_readColon hc)

theorem within_skipValue {c c' : Cursor} {u : Unit} (h : skipValue c = .ok (u, c')) :
    Within c' c := by
  refine within_lift (r := (Json.Skip.run c).map fun c => ((), c)) (fun _ c'' hr => ?_) h
  unfold Json.Skip.run at hr
  split at hr
  next hd =>
    obtain ⟨-, rfl⟩ := Prod.mk.inj (Except.ok.inj hr)
    exact within_drive hd
  · cases hr

theorem within_map {α β : Type} {r : Outcome α} {f : α × Cursor → β} {c c' : Cursor} {b : β}
    (hr : ∀ a c', r = .ok (a, c') → Within c' c)
    (h : (r.map fun p => (f p, p.2)) = .ok (b, c')) : Within c' c := by
  cases r with
  | error e => cases h
  | ok p =>
      obtain ⟨-, rfl⟩ := Prod.mk.inj (Except.ok.inj h)
      exact hr p.1 p.2 rfl

end Embed

end Jstn
