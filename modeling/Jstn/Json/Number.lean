import Jstn.Binary64.Shortest
import Jstn.Json.Machine

/-!
# Numbers of JSON

A number is an optional minus sign, a whole part without leading zeros, an
optional fraction and an optional exponent.  `Phase` follows this syntax and is
all that is needed to skip a number.

A number that is read for its value is also measured.  The digits are collected
into a significand of 64 bits.  Once one no longer fits, the digits of the whole
part only count towards the exponent and those of the fraction are dropped.  A
whole number that fits is kept as it is.  Any other is turned into a `Binary64`,
which fails if it is out of range.
-/

namespace Jstn

namespace Json

namespace Number

/-- What has been read of a number. -/
inductive Phase
  /-- The minus sign. -/
  | sign
  /-- The whole part, which is zero. -/
  | zero
  /-- A digit of the whole part. -/
  | whole
  /-- The decimal point. -/
  | point
  /-- A digit of the fraction. -/
  | fraction
  /-- The letter of the exponent. -/
  | exponent
  /-- The sign of the exponent. -/
  | exponentSign
  /-- A digit of the exponent. -/
  | exponentDigit
deriving DecidableEq, Repr, Inhabited

namespace Phase

/-- The phase after the first byte of a number. -/
def ofFirst? (b : UInt8) : Option Phase :=
  if b = Byte.minus then some sign
  else if b = Byte.zero then some zero
  else if Byte.isDigit b then some whole
  else none

/-- Whether what has been read is a number. -/
def isComplete : Phase → Bool
  | zero | whole | fraction | exponentDigit => true
  | sign | point | exponent | exponentSign => false

/-- One byte of a number. -/
def step (phase : Phase) (b : UInt8) : Reply Phase Unit :=
  match phase with
  | sign =>
      if b = Byte.zero then .more zero
      else if Byte.isDigit b then .more whole
      else .fail .invalidNumber .past
  | zero => if Byte.isDigit b then .fail .invalidNumber .past else afterWhole b
  | whole => if Byte.isDigit b then .more whole else afterWhole b
  | point => if Byte.isDigit b then .more fraction else .fail .invalidNumber .past
  | fraction =>
      if Byte.isDigit b then .more fraction
      else if Byte.isExponentLetter b then .more exponent
      else .stop ()
  | exponent =>
      if b = Byte.plus ∨ b = Byte.minus then .more exponentSign
      else if Byte.isDigit b then .more exponentDigit
      else .fail .invalidNumber .past
  | exponentSign => if Byte.isDigit b then .more exponentDigit else .fail .invalidNumber .past
  | exponentDigit => if Byte.isDigit b then .more exponentDigit else .stop ()
where
  /-- A byte after the whole part. -/
  afterWhole (b : UInt8) : Reply Phase Unit :=
    if b = Byte.point then .more point
    else if Byte.isExponentLetter b then .more exponent
    else .stop ()

end Phase

/-! ## Measuring -/

/-- The greatest significand. -/
def maxSignificand : Nat := Nat.pow 2 64 - 1

/-- The greatest exponent that can be written. -/
def maxWrittenExponent : Nat := Nat.pow 2 31 - 1

/-- What the digits so far add up to. -/
structure Measure where
  /-- The number has a minus sign. -/
  negative : Bool := false
  /-- The digits that have been collected. -/
  significand : Nat := 0
  /-- No further digit is collected. -/
  full : Bool := false
  /-- The power of ten of the last collected digit. -/
  scale : Int := 0
  /-- The number is not a whole number that fits. -/
  real : Bool := false
  /-- The exponent has a minus sign. -/
  exponentNegative : Bool := false
  /-- The exponent as it is written. -/
  exponent : Nat := 0
  /-- The exponent is so far below zero, or the significand so plainly zero, that
  the number is zero. -/
  vanished : Bool := false
deriving DecidableEq, Repr, Inhabited

namespace Measure

/-- A digit of the whole part. -/
def wholeDigit (m : Measure) (d : Nat) : Measure :=
  if m.full then { m with scale := m.scale + 1 }
  else if maxSignificand < m.significand * 10 + d then
    { m with full := true, real := true, scale := m.scale + 1 }
  else { m with significand := m.significand * 10 + d }

/-- A digit of the fraction. -/
def fractionDigit (m : Measure) (d : Nat) : Measure :=
  if m.full then m
  else if maxSignificand < m.significand * 10 + d then { m with full := true }
  else { m with significand := m.significand * 10 + d, scale := m.scale - 1 }

/-- A digit of the exponent, unless it puts the number out of range. -/
def exponentDigit? (m : Measure) (d : Nat) : Option Measure :=
  if m.vanished then some m
  else if maxWrittenExponent < m.exponent * 10 + d then
    if m.significand ≠ 0 ∧ !m.exponentNegative then none else some { m with vanished := true }
  else some { m with exponent := m.exponent * 10 + d }

/-- A byte that led to a phase, unless it puts the number out of range. -/
def feed? (m : Measure) (phase : Phase) (b : UInt8) : Option Measure :=
  match phase with
  | .sign => some { m with negative := true }
  | .zero | .whole => some (m.wholeDigit (Byte.digitValue b))
  | .point => some { m with full := false, real := true }
  | .fraction => some (m.fractionDigit (Byte.digitValue b))
  | .exponent => some { m with real := true }
  | .exponentSign => some { m with exponentNegative := b = Byte.minus }
  | .exponentDigit => m.exponentDigit? (Byte.digitValue b)

end Measure

/-- The value of a number. -/
inductive Value
  /-- A whole number that fits in 64 bits. -/
  | whole (n : Int)
  /-- Any other number. -/
  | real (negative : Bool) (magnitude : Binary64)
deriving DecidableEq, Repr, Inhabited

/-- The value that digits add up to, unless it is out of range.  Minus zero and
whole numbers below -2^63 are not kept as whole numbers. -/
def Measure.value? (m : Measure) : Option Value :=
  if m.vanished then some (.real m.negative ⟨0, Binary64.minExponent⟩)
  else if !m.real && !m.negative then some (.whole m.significand)
  else if !m.real && 0 < m.significand && m.significand ≤ Nat.pow 2 63 then
    some (.whole (-m.significand))
  else
    let written : Int := if m.exponentNegative then -m.exponent else m.exponent
    (Binary64.scaled? m.significand (m.scale + written)).map (.real m.negative)

/-! ## Reading for the value -/

/-- A number that is being read for its value. -/
structure State where
  /-- The syntax so far. -/
  phase : Phase
  /-- The digits so far. -/
  measure : Measure
deriving DecidableEq, Repr, Inhabited

/-- The state after the first byte of a number. -/
def ofFirst? (b : UInt8) : Option State :=
  (Phase.ofFirst? b).bind fun phase =>
    (Measure.feed? {} phase b).map fun measure => ⟨phase, measure⟩

/-- One byte of a number that is read for its value. -/
def step (s : State) (b : UInt8) : Reply State Value :=
  match s.phase.step b with
  | .more phase =>
      match s.measure.feed? phase b with
      | some measure => .more ⟨phase, measure⟩
      | none => .fail .numberOutOfRange .past
  | .fail fault side => .fail fault side
  | .done () | .stop () =>
      match s.measure.value? with
      | some value => .stop value
      | none => .fail .numberOutOfRange .before

/-- The end of the text after or inside a number. -/
def finish (s : State) : Except Fault Value :=
  if s.phase.isComplete then
    match s.measure.value? with
    | some value => .ok value
    | none => .error .numberOutOfRange
  else .error .endInValue

/-- The text of a value in messages. -/
def Value.describe : Value → String
  | whole n => "integer `" ++ toString n ++ "`"
  | real negative x => "floating point `" ++ x.render negative ++ "`"

end Number

end Json

end Jstn
