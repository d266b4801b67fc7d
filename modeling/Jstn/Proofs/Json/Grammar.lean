import Jstn.Json.Container
import Jstn.Json.Literal
import Jstn.Json.Number
import Jstn.Json.Word
import Jstn.Kind

/-!
# JSON values and their texts

A value is what a text stands for once its layout is forgotten.  An object is
the list of its members in the order of the text, and a name may occur more than
once.  A number is kept as it is written.  A string, and a key, is the text it
stands for, or nothing if it stands for none: an escape may name half of a
surrogate pair, and raw bytes may fail to be UTF-8.

`Text v bytes` is the grammar.  It speaks of bytes, since documents are bytes.

* A number is a sign, a whole part without leading zeros, a fraction and an
  exponent, of which only the whole part has to be there (`Number.Written`).
* The body of a literal is plain bytes and escapes (`Literal.Body`), and
  `Literal.Spells` says which bytes it stands for.  A surrogate pair is one
  character, and half of a pair spells nothing.
* An array has items with commas between them, and an object members.  Blanks
  may stand around every item, key and value.

A document is one text with blanks around it (`Written`).
-/

namespace Jstn

namespace Json

/-! ## Values -/

/-- A JSON value. -/
inductive Value
  | null
  | boolean (b : Bool)
  /-- A number, as it is written. -/
  | number (written : List UInt8)
  /-- A string, if its literal stands for a text. -/
  | string (text : Option String)
  | array (items : List Value)
  /-- An object, with the keys that stand for a text. -/
  | object (members : List (Option String × Value))
deriving Inhabited

/-- The kind of a value. -/
def Value.kind : Value → Kind
  | null => .null
  | boolean _ => .boolean
  | number _ => .number
  | string _ => .string
  | array _ => .array
  | object _ => .object

/-! ## Blanks and numbers -/

/-- A run of blanks, which may be empty. -/
def Blanks (w : List UInt8) : Prop := ∀ b ∈ w, Byte.isBlank b = true

theorem blank_ascii {b : UInt8} (h : Byte.isBlank b = true) : b.toNat < 0x80 := by
  simp only [Byte.isBlank, Bool.or_eq_true, decide_eq_true_eq] at h
  rcases h with ((rfl | rfl) | rfl) | rfl <;> decide

namespace Number

/-- A run of digits, which may be empty. -/
def Digits (ds : List UInt8) : Prop := ∀ d ∈ ds, Byte.isDigit d = true

/-- The whole part of a number. -/
inductive WholePart : List UInt8 → Prop
  | zero : WholePart [Byte.zero]
  | digits {d : UInt8} {ds : List UInt8} :
      Byte.isDigit d = true → d ≠ Byte.zero → Digits ds → WholePart (d :: ds)

/-- The fraction of a number. -/
inductive FractionPart : List UInt8 → Prop
  | none : FractionPart []
  | digits {d : UInt8} {ds : List UInt8} :
      Byte.isDigit d = true → Digits ds → FractionPart (Byte.point :: d :: ds)

/-- The exponent of a number. -/
inductive ExponentPart : List UInt8 → Prop
  | none : ExponentPart []
  | digits {e d : UInt8} {sign ds : List UInt8} :
      Byte.isExponentLetter e = true → sign = [] ∨ sign = [Byte.plus] ∨ sign = [Byte.minus] →
      Byte.isDigit d = true → Digits ds → ExponentPart (e :: (sign ++ d :: ds))

/-- The text of a number. -/
inductive Written : List UInt8 → Prop
  | parts {sign whole fraction exponent : List UInt8} :
      sign = [] ∨ sign = [Byte.minus] → WholePart whole → FractionPart fraction →
      ExponentPart exponent → Written (sign ++ (whole ++ (fraction ++ exponent)))

end Number

/-! ## Literals -/

namespace Literal

/-- A byte that stands for itself in a literal. -/
def IsPlain (b : UInt8) : Prop :=
  b ≠ Byte.quote ∧ b ≠ Byte.backslash ∧ Byte.isControl b = false

/-- Four hexadecimal digits and their value. -/
inductive HexCode : List UInt8 → Nat → Prop
  | digits {a b c d : UInt8} {w x y z : Nat} :
      Byte.hexValue? a = some w → Byte.hexValue? b = some x → Byte.hexValue? c = some y →
      Byte.hexValue? d = some z → HexCode [a, b, c, d] (((w * 16 + x) * 16 + y) * 16 + z)

/-- What may stand between the quotes of a literal. -/
inductive Body : List UInt8 → Prop
  | nil : Body []
  | plain {b : UInt8} {body : List UInt8} : IsPlain b → Body body → Body (b :: body)
  | escape {e c : UInt8} {body : List UInt8} :
      Byte.escaped? e = some c → Body body → Body (Byte.backslash :: e :: body)
  | code {hex body : List UInt8} {n : Nat} :
      HexCode hex n → Body body → Body (Byte.backslash :: Byte.letterU :: (hex ++ body))

/-- The bytes that the body of a literal stands for.  Half of a surrogate pair
stands for none. -/
inductive Spells : List UInt8 → List UInt8 → Prop
  | nil : Spells [] []
  | plain {b : UInt8} {body bytes : List UInt8} :
      IsPlain b → Spells body bytes → Spells (b :: body) (b :: bytes)
  | escape {e c : UInt8} {body bytes : List UInt8} :
      Byte.escaped? e = some c → Spells body bytes →
      Spells (Byte.backslash :: e :: body) (c :: bytes)
  | code {hex body bytes : List UInt8} {n : Nat} :
      HexCode hex n → isHighSurrogate n = false → isLowSurrogate n = false →
      Spells body bytes →
      Spells (Byte.backslash :: Byte.letterU :: (hex ++ body))
        (String.utf8EncodeChar (Char.ofNat n) ++ bytes)
  | pair {hex hex' body bytes : List UInt8} {high low : Nat} :
      HexCode hex high → isHighSurrogate high = true →
      HexCode hex' low → isLowSurrogate low = true → Spells body bytes →
      Spells
        (Byte.backslash :: Byte.letterU ::
          (hex ++ Byte.backslash :: Byte.letterU :: (hex' ++ body)))
        (String.utf8EncodeChar (Char.ofNat (pairValue high low)) ++ bytes)

/-- The text that a body stands for, or nothing if it stands for none. -/
def Denotes (body : List UInt8) (text : Option String) : Prop :=
  Body body ∧ ∀ s, text = some s ↔ Spells body (Utf8.encode s)

/-- The literal with a body. -/
def quoted (body : List UInt8) : List UInt8 := Byte.quote :: (body ++ [Byte.quote])

end Literal

/-! ## Entries of containers -/

/-- A value, its text and the blanks around it. -/
structure Item where
  /-- The blanks before the value. -/
  before : List UInt8
  /-- The value. -/
  value : Value
  /-- The text of the value. -/
  text : List UInt8
  /-- The blanks after the value. -/
  after : List UInt8

/-- The bytes of an item. -/
def Item.bytes (i : Item) : List UInt8 := i.before ++ (i.text ++ i.after)

/-- A member of an object: a key with its literal and an item. -/
structure Member where
  /-- The blanks before the key. -/
  before : List UInt8
  /-- The text that the key stands for, if it stands for one. -/
  key : Option String
  /-- The body of the key's literal. -/
  body : List UInt8
  /-- The blanks between the key and the colon. -/
  after : List UInt8
  /-- What follows the colon. -/
  item : Item

namespace Member

/-- The bytes of a member. -/
def bytes (m : Member) : List UInt8 :=
  m.before ++ (Literal.quoted m.body ++ (m.after ++ Byte.colon :: m.item.bytes))

/-- A member without its layout. -/
def entry (m : Member) : Option String × Value := (m.key, m.item.value)

end Member

/-- The bytes of entries that follow another. -/
def moreItems (items : List Item) : List UInt8 := items.flatMap fun i => Byte.comma :: i.bytes

/-- The bytes of members that follow another. -/
def moreMembers (members : List Member) : List UInt8 :=
  members.flatMap fun m => Byte.comma :: m.bytes

theorem moreItems_cons (i : Item) (items : List Item) :
    moreItems (i :: items) = Byte.comma :: (i.bytes ++ moreItems items) := rfl

theorem moreMembers_cons (m : Member) (members : List Member) :
    moreMembers (m :: members) = Byte.comma :: (m.bytes ++ moreMembers members) := rfl

/-! ## Texts of values -/

/-- Bytes that are the text of a value. -/
inductive Text : Value → List UInt8 → Prop
  | null : Text .null (0x6E :: Word.null)
  | true : Text (.boolean Bool.true) (0x74 :: Word.true)
  | false : Text (.boolean Bool.false) (0x66 :: Word.false)
  | number {bytes : List UInt8} : Number.Written bytes → Text (.number bytes) bytes
  | string {body : List UInt8} {text : Option String} :
      Literal.Denotes body text → Text (.string text) (Literal.quoted body)
  | emptyArray {blanks : List UInt8} :
      Blanks blanks → Text (.array []) (Byte.openBracket :: (blanks ++ [Byte.closeBracket]))
  | array {first : Item} {more : List Item} :
      (∀ i ∈ first :: more, Blanks i.before ∧ Blanks i.after) →
      (∀ i ∈ first :: more, Text i.value i.text) →
      Text (.array ((first :: more).map Item.value))
        (Byte.openBracket :: (first.bytes ++ (moreItems more ++ [Byte.closeBracket])))
  | emptyObject {blanks : List UInt8} :
      Blanks blanks → Text (.object []) (Byte.openBrace :: (blanks ++ [Byte.closeBrace]))
  | object {first : Member} {more : List Member} :
      (∀ m ∈ first :: more, Blanks m.before ∧ Blanks m.after ∧ Literal.Denotes m.body m.key) →
      (∀ m ∈ first :: more, Blanks m.item.before ∧ Blanks m.item.after) →
      (∀ m ∈ first :: more, Text m.item.value m.item.text) →
      Text (.object ((first :: more).map Member.entry))
        (Byte.openBrace :: (first.bytes ++ (moreMembers more ++ [Byte.closeBrace])))

/-- A document that is one value with blanks around it. -/
def Written (v : Value) (document : List UInt8) : Prop :=
  ∃ before text after, document = before ++ (text ++ after) ∧ Blanks before ∧ Blanks after ∧
    Text v text

end Json

end Jstn
