/-!
# Floating-point numbers of 64 bits

A number that is not negative is a mantissa below 2^53 times a power of two.
The exponent is at least -1074 and at most 971, and the mantissa is below 2^52
only at the least exponent.  Rounding is exact and to nearest, a tie going to
the even mantissa.  What would need a greater exponent is out of range.

`scaled?` is the value of a decimal number with a significand and a power of
ten.  It takes one rounding for the significand and one for each factor, so it
may differ from the nearest number in the last bits.
-/

namespace Jstn

/-- The number `mantissa * 2 ^ exponent`. -/
structure Binary64 where
  /-- The mantissa. -/
  mantissa : Nat
  /-- The power of two. -/
  exponent : Int
deriving DecidableEq, Repr, Inhabited

namespace Binary64

/-- The least exponent. -/
def minExponent : Int := -1074

/-- The greatest exponent. -/
def maxExponent : Int := 971

/-- A quotient rounded to the nearest number, a tie to the even one. -/
def roundQuotient (num den : Nat) : Nat :=
  let q := num / den
  let r := num % den
  if 2 * r < den then q
  else if den < 2 * r then q + 1
  else q + q % 2

/-- The numerator of `num * 2 ^ e` as a fraction. -/
def scaleNum (num : Nat) (e : Int) : Nat := num * Nat.pow 2 e.toNat

/-- The denominator of `1 / den * 2 ^ e` as a fraction. -/
def scaleDen (den : Nat) (e : Int) : Nat := den * Nat.pow 2 (-e).toNat

/-- The number nearest to a fraction, unless it is out of range. -/
def ofFraction? (num den : Nat) : Option Binary64 :=
  if num = 0 then some ⟨0, minExponent⟩
  else
    let guess := max ((num.log2 : Int) - den.log2 - 53) minExponent
    let full := Nat.pow 2 53
    let e := if full ≤ scaleNum num (-guess) / scaleDen den (-guess) then guess + 1 else guess
    let m := roundQuotient (scaleNum num (-e)) (scaleDen den (-e))
    let x : Binary64 := if m = full then ⟨Nat.pow 2 52, e + 1⟩ else ⟨m, e⟩
    if x.exponent ≤ maxExponent then some x else none

/-- The product of two numbers, unless it is out of range. -/
def mul? (x y : Binary64) : Option Binary64 :=
  let m := x.mantissa * y.mantissa
  let e := x.exponent + y.exponent
  ofFraction? (scaleNum m e) (scaleDen 1 e)

/-- The quotient of two numbers, unless it is out of range. -/
def div? (x y : Binary64) : Option Binary64 :=
  let e := x.exponent - y.exponent
  ofFraction? (scaleNum x.mantissa e) (scaleDen y.mantissa e)

/-- The greatest power of ten that is used as a factor. -/
def maxTens : Nat := 308

/-- A power of ten. -/
def tens? (n : Nat) : Option Binary64 := ofFraction? (Nat.pow 10 n) 1

/-- A number divided by a power of ten, in steps of `maxTens`. -/
def descaled? (x : Binary64) (n : Nat) : Option Binary64 :=
  if n ≤ maxTens then (tens? n).bind x.div?
  else if x.mantissa = 0 then some x
  else (tens? maxTens).bind x.div? |>.bind fun y => descaled? y (n - maxTens)
termination_by n
decreasing_by simp only [maxTens] at *; omega

/-- The value of `significand * 10 ^ power`, unless it is out of range. -/
def scaled? (significand : Nat) (power : Int) : Option Binary64 :=
  (ofFraction? significand 1).bind fun x =>
    if power < 0 then x.descaled? (-power).toNat
    else if power.toNat ≤ maxTens then (tens? power.toNat).bind x.mul?
    else if x.mantissa = 0 then some x
    else none

example : scaled? 15 (-1) = some ⟨3 * 2 ^ 51, -52⟩ := by decide +kernel
example : scaled? 5 (-324) = some ⟨1, -1074⟩ := by decide +kernel
example : scaled? 2 308 = none := by decide +kernel

end Binary64

end Jstn
