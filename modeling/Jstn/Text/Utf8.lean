/-!
# UTF-8

A machine that reads UTF-8 one byte at a time.  It is either between two
characters or inside one.  Inside, it knows which bytes may come next: a byte
that can complete no character is refused at once, so overlong forms,
surrogates and code points above U+10FFFF never get past their second byte.

`decode` reads a whole list of bytes.  Where it fails it says how many bytes
before the failing character are sound.
-/

namespace Jstn

namespace Utf8

/-- Where the machine stands. -/
inductive State
  /-- Between two characters. -/
  | boundary
  /-- Inside a character.  The next byte has to lie between `low` and `high`,
  and `more` bytes come after it.  `code` is what the bytes so far add up to. -/
  | inside (code : Nat) (low high : UInt8) (more : Nat)
deriving DecidableEq, Repr, Inhabited

/-- What one byte does. -/
inductive Step
  /-- The byte completes a character. -/
  | char (c : Char)
  /-- The byte belongs to a character that goes on. -/
  | more (s : State)
  /-- The byte cannot stand here. -/
  | bad
deriving DecidableEq, Repr, Inhabited

/-- The first byte of a character. -/
def lead (b : UInt8) : Step :=
  if b < 0x80 then .char (Char.ofNat b.toNat)
  else if b < 0xC2 then .bad
  else if b < 0xE0 then .more (.inside (b.toNat - 0xC0) 0x80 0xBF 0)
  else if b = 0xE0 then .more (.inside 0 0xA0 0xBF 1)
  else if b = 0xED then .more (.inside 0xD 0x80 0x9F 1)
  else if b < 0xF0 then .more (.inside (b.toNat - 0xE0) 0x80 0xBF 1)
  else if b = 0xF0 then .more (.inside 0 0x90 0xBF 2)
  else if b < 0xF4 then .more (.inside (b.toNat - 0xF0) 0x80 0xBF 2)
  else if b = 0xF4 then .more (.inside 4 0x80 0x8F 2)
  else .bad

/-- One byte. -/
def step (s : State) (b : UInt8) : Step :=
  match s with
  | .boundary => lead b
  | .inside code low high more =>
      if low ≤ b ∧ b ≤ high then
        let code := code * 64 + (b.toNat - 0x80)
        match more with
        | 0 => .char (Char.ofNat code)
        | more + 1 => .more (.inside code 0x80 0xBF more)
      else .bad

/-- Reads bytes on from a state.  `sound` bytes make up the characters that are
complete, and `read` bytes have been read. -/
def decodeFrom (s : State) (sound read : Nat) : List UInt8 → Except Nat (List Char)
  | [] => if s = .boundary then .ok [] else .error sound
  | b :: bs =>
      match step s b with
      | .char c =>
          match decodeFrom .boundary (read + 1) (read + 1) bs with
          | .ok cs => .ok (c :: cs)
          | .error n => .error n
      | .more s => decodeFrom s sound (read + 1) bs
      | .bad => .error sound

/-- The characters that bytes spell, or the number of bytes before the first
character that is not sound. -/
def decode (bytes : List UInt8) : Except Nat (List Char) := decodeFrom .boundary 0 0 bytes

/-- The bytes of a text. -/
def encode (text : String) : List UInt8 := text.toList.flatMap String.utf8EncodeChar

example : decode (encode "aé日😀") = .ok ['a', 'é', '日', '😀'] := by cbv
example : decode [0x61, 0xE2, 0x82, 0x22] = .error 1 := by cbv
example : decode [0xED, 0xA0, 0x80] = .error 0 := by cbv

end Utf8

end Jstn
