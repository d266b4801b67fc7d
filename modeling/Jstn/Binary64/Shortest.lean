import Jstn.Binary64

/-!
# The shortest decimal text of a number

Among the decimal numbers that round to a given number, the text shows one with
the fewest digits, and of those the nearest.  Seventeen digits always suffice.

A decimal number of `n` digits lies on the grid of some power of ten.  If any
point of a grid rounds to the number, then one of the two grid points around it
does, so only those two are tried.

The text is positional for numbers from 0.00001 up to below 10^16, and then it
always has a point.  Beyond that the first digit stands alone before the point
and a signed power of ten follows.
-/

namespace Jstn

namespace Binary64

/-- The decimal number `digits * 10 ^ power`. -/
structure Decimal where
  /-- The digits, read as a number. -/
  digits : Nat
  /-- The power of ten. -/
  power : Int
deriving DecidableEq, Repr, Inhabited

/-- Whether `d * 10 ^ power` rounds to `x`.  The ends of the interval that
rounds to a number belong to it when the mantissa is even. -/
def roundsTo (x : Binary64) (d : Nat) (power : Int) : Bool :=
  let below := if x.mantissa = Nat.pow 2 52 ∧ minExponent < x.exponent then 1 else 2
  let e := x.exponent - 2
  let low := 4 * x.mantissa - below
  let high := 4 * x.mantissa + 2
  -- The candidate, in units of a quarter of the last place.
  let num := d * Nat.pow 10 power.toNat * Nat.pow 2 (-e).toNat
  let den := Nat.pow 10 (-power).toNat * Nat.pow 2 e.toNat
  if x.mantissa % 2 = 0 then low * den ≤ num && num ≤ high * den
  else low * den < num && num < high * den

/-- The power of ten of the first digit. -/
def leadingPower (x : Binary64) : Int :=
  let num := scaleNum x.mantissa x.exponent
  let den := scaleDen 1 x.exponent
  let guess := (((num.log2 : Int) - den.log2) * 30103) / 100000
  let atLeast (k : Int) : Bool := Nat.pow 10 k.toNat * den ≤ num * Nat.pow 10 (-k).toNat
  if atLeast (guess + 1) then guess + 1
  else if atLeast guess then guess
  else guess - 1

/-- The best decimal number on the grid of a power of ten, if one there rounds
to `x`. -/
def onGrid? (x : Binary64) (power : Int) : Option Decimal :=
  let num := scaleNum x.mantissa x.exponent * Nat.pow 10 (-power).toNat
  let den := scaleDen 1 x.exponent * Nat.pow 10 power.toNat
  let d := num / den
  let near := roundQuotient num den
  let far := if near = d then d + 1 else d
  if roundsTo x near power then some ⟨near, power⟩
  else if roundsTo x far power then some ⟨far, power⟩
  else none

/-- A decimal number without the zeros at its end. -/
def Decimal.trim : Nat → Decimal → Decimal
  | 0, d => d
  | n + 1, d => if d.digits ≠ 0 ∧ d.digits % 10 = 0 then trim n ⟨d.digits / 10, d.power + 1⟩ else d

/-- The shortest decimal number that rounds to `x`, of those the nearest. -/
def shortest (x : Binary64) : Decimal :=
  if x.mantissa = 0 then ⟨0, 0⟩
  else
    let top := leadingPower x
    let found := (List.range 17).findSome? fun (n : Nat) => onGrid? x (top - n)
    (found.getD ⟨x.mantissa, 0⟩).trim 17

/-- The text of a decimal number. -/
def Decimal.chars (d : Decimal) : List Char :=
  let digits := Nat.toDigits 10 d.digits
  let place := digits.length + d.power
  if 0 ≤ d.power ∧ place ≤ 16 then digits ++ List.replicate d.power.toNat '0' ++ ['.', '0']
  else if 0 < place ∧ place ≤ 16 then
    digits.take place.toNat ++ '.' :: digits.drop place.toNat
  else if -5 < place ∧ place ≤ 0 then
    '0' :: '.' :: List.replicate (-place).toNat '0' ++ digits
  else
    let mantissa :=
      match digits with
      | first :: second :: more => first :: '.' :: second :: more
      | _ => digits
    let power := place - 1
    let sign := if power < 0 then '-' else '+'
    mantissa ++ 'e' :: sign :: Nat.toDigits 10 power.natAbs

/-- The text of a number and its sign. -/
def render (negative : Bool) (x : Binary64) : String :=
  String.ofList ((if negative then ['-'] else []) ++ x.shortest.chars)

example : render true ⟨3 * 2 ^ 51, -52⟩ = "-1.5" := by decide +kernel
example : render false ⟨1, -1074⟩ = "5e-324" := by decide +kernel
example : render false ⟨0, -1074⟩ = "0.0" := by decide +kernel

end Binary64

end Jstn
