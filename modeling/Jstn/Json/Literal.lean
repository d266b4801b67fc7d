import Jstn.Json.Machine
import Jstn.Text.Utf8

/-!
# String literals of JSON

A string literal is read in one of two ways, in both cases from the byte after
its opening quote.

* Skipping (`Skip`) checks the syntax only.  An escape of four hexadecimal
  digits may name half of a surrogate pair.
* Decoding (`Decode`) also gives the bytes that the literal stands for.  Halves
  of a pair have to come together.  What the bytes spell is found out once the
  literal has ended (`text`).

`encode` writes a literal.  It escapes quotes, backslashes and control
characters and nothing else.
-/

namespace Jstn

namespace Json

namespace Literal

/-! ## Skipping -/

/-- Where the skipping of a literal stands. -/
inductive Skip
  /-- Between characters. -/
  | plain
  /-- After a backslash. -/
  | escape
  /-- Before a hexadecimal digit with `left` more to come.  `sound` tells whether
  all digits so far are hexadecimal. -/
  | hex (left : Nat) (sound : Bool)
deriving DecidableEq, Repr, Inhabited

namespace Skip

/-- One byte of a literal that is skipped.  The four bytes of a hexadecimal
escape are taken before any of them is checked. -/
def step (s : Skip) (b : UInt8) : Reply Skip Unit :=
  match s with
  | plain =>
      if b = Byte.quote then .done ()
      else if b = Byte.backslash then .more escape
      else if Byte.isControl b then .fail .controlCharacter .before
      else .more plain
  | escape =>
      if (Byte.escaped? b).isSome then .more plain
      else if b = Byte.letterU then .more (hex 3 true)
      else .fail .invalidEscape .past
  | hex left sound =>
      let sound := sound && (Byte.hexValue? b).isSome
      match left with
      | left + 1 => .more (hex left sound)
      | 0 => if sound then .more plain else .fail .invalidEscape .past

/-- The end of the text inside a literal. -/
def finish (_s : Skip) : Except Fault Unit := .error .endInString

end Skip

/-! ## Decoding -/

/-- The first half of a surrogate pair. -/
def isHighSurrogate (n : Nat) : Bool := 0xD800 ≤ n && n ≤ 0xDBFF

/-- The second half of a surrogate pair. -/
def isLowSurrogate (n : Nat) : Bool := 0xDC00 ≤ n && n ≤ 0xDFFF

/-- The code point of a surrogate pair. -/
def pairValue (high low : Nat) : Nat := 0x10000 + (high - 0xD800) * 0x400 + (low - 0xDC00)

/-- Where the decoding of a literal stands. -/
inductive Point
  /-- Between characters. -/
  | plain
  /-- After a backslash. -/
  | escape
  /-- Before a hexadecimal digit with `left` more to come.  `value` is what the
  digits so far add up to, if all are hexadecimal, and `high` the first half of
  the pair that the escape completes. -/
  | hex (high : Option Nat) (left : Nat) (value : Option Nat)
  /-- Before the backslash of the second half of a pair. -/
  | pairBackslash (high : Nat)
  /-- Before the `u` of the second half of a pair. -/
  | pairLetter (high : Nat)
deriving DecidableEq, Repr, Inhabited

/-- A literal that is being decoded. -/
structure Decode where
  /-- The bytes that the literal stands for so far, last first. -/
  decoded : List UInt8
  /-- Where the decoding stands. -/
  point : Point
deriving DecidableEq, Repr, Inhabited

namespace Decode

/-- The state after the opening quote. -/
def start : Decode := ⟨[], .plain⟩

/-- The state after a byte that stands for `bytes`. -/
def push (s : Decode) (bytes : List UInt8) : Decode := ⟨bytes.reverse ++ s.decoded, .plain⟩

/-- The state after a code point. -/
def pushCode (s : Decode) (n : Nat) : Decode := s.push (String.utf8EncodeChar (Char.ofNat n))

/-- The end of a hexadecimal escape. -/
def closeHex (s : Decode) (high : Option Nat) (value : Option Nat) : Reply Decode (List UInt8) :=
  match high, value with
  | _, none => .fail .invalidEscape .past
  | none, some n =>
      if isLowSurrogate n then .fail .loneSurrogate .past
      else if isHighSurrogate n then .more { s with point := .pairBackslash n }
      else .more (s.pushCode n)
  | some high, some n =>
      if isLowSurrogate n then .more (s.pushCode (pairValue high n))
      else .fail .loneSurrogate .past

/-- One byte of a literal that is decoded. -/
def step (s : Decode) (b : UInt8) : Reply Decode (List UInt8) :=
  match s.point with
  | .plain =>
      if b = Byte.quote then .done s.decoded.reverse
      else if b = Byte.backslash then .more { s with point := .escape }
      else if Byte.isControl b then .fail .controlCharacter .past
      else .more (s.push [b])
  | .escape =>
      match Byte.escaped? b with
      | some c => .more (s.push [c])
      | none =>
          if b = Byte.letterU then .more { s with point := .hex none 3 (some 0) }
          else .fail .invalidEscape .past
  | .hex high left value =>
      let value := value.bind fun n => (Byte.hexValue? b).map fun d => n * 16 + d
      match left with
      | left + 1 => .more { s with point := .hex high left value }
      | 0 => s.closeHex high value
  | .pairBackslash high =>
      if b = Byte.backslash then .more { s with point := .pairLetter high }
      else .fail .missingSurrogate .past
  | .pairLetter high =>
      if b = Byte.letterU then .more { s with point := .hex (some high) 3 (some 0) }
      else .fail .missingSurrogate .past

/-- The end of the text inside a literal. -/
def finish (_s : Decode) : Except Fault (List UInt8) := .error .endInString

end Decode

/-- The text that the decoded bytes of a literal spell.  `p` is the position
after its closing quote.  A fault is placed as many columns before it as there
are decoded bytes from the first unsound character on. -/
def text (decoded : List UInt8) (p : Position) : Except (Fault × Position) String :=
  match Utf8.decode decoded with
  | .ok cs => .ok (String.ofList cs)
  | .error sound => .error (.invalidUnicode, p.back (decoded.length - sound))

/-- Reads a literal whose opening quote has been read. -/
def read (c : Cursor) : Except (Fault × Position) (String × Cursor) :=
  match drive Decode.step Decode.finish .start c.position c.rest with
  | .ok (decoded, c) =>
      match text decoded c.position with
      | .ok s => .ok (s, c)
      | .error e => .error e
  | .error e => .error e

/-! ## Writing -/

/-- The two hexadecimal digits of a control character. -/
def hexPair (n : Nat) : List Char := [Nat.digitChar (n / 16), Nat.digitChar (n % 16)]

/-- A character as it is written in a literal. -/
def encodeChar (c : Char) : List Char :=
  match c with
  | '"' => ['\\', '"']
  | '\\' => ['\\', '\\']
  | '\x08' => ['\\', 'b']
  | '\x0c' => ['\\', 'f']
  | '\n' => ['\\', 'n']
  | '\r' => ['\\', 'r']
  | '\t' => ['\\', 't']
  | _ => if c.toNat < 0x20 then ['\\', 'u', '0', '0'] ++ hexPair c.toNat else [c]

/-- The literal that stands for a text. -/
def encode (text : String) : String :=
  String.ofList ('"' :: text.toList.flatMap encodeChar ++ ['"'])

example : encode "a\"\n\x1fé" = "\"a\\\"\\n\\u001fé\"" := by decide +kernel
example :
    ((read (.ofBytes (Utf8.encode "\\u00e9\\ud83d\\ude00\" "))).map Prod.fst).toOption
      = some "é😀" := by
  decide +kernel

end Literal

end Json

end Jstn
