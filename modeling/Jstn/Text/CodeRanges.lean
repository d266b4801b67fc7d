/-!
# Ranges of code points

A class of characters is written as a list of ranges of code points, each with
both its ends, from the lowest up.  A look-up walks the list and stops at the
first range that begins above the code point.

It stops early because the list ascends: no range after that one can hold the
code point either.  `AscendingFrom` is decidable, and each table is tested for it.
-/

namespace Jstn

/-- Ranges of code points, each as its lowest and its highest one. -/
abbrev CodeRanges := List (Nat × Nat)

namespace CodeRanges

/-- Whether one of the ranges holds `n`. -/
def contains : CodeRanges → Nat → Bool
  | [], _ => false
  | (low, high) :: ranges, n =>
      if n < low then false else if n ≤ high then true else contains ranges n

/-- No range is empty, and each begins above the end of the one before.  The
first begins at `start` or above. -/
def AscendingFrom : Nat → CodeRanges → Prop
  | _, [] => True
  | start, (low, high) :: ranges =>
      start ≤ low ∧ low ≤ high ∧ AscendingFrom (high + 1) ranges

instance decidableAscendingFrom : ∀ (start : Nat) (ranges : CodeRanges),
    Decidable (AscendingFrom start ranges)
  | _, [] => .isTrue trivial
  | start, (low, high) :: ranges =>
      have := decidableAscendingFrom (high + 1) ranges
      inferInstanceAs (Decidable (start ≤ low ∧ low ≤ high ∧ AscendingFrom (high + 1) ranges))

/-- The number of code points in the ranges. -/
def count (ranges : CodeRanges) : Nat := ranges.foldr (fun r n => r.2 + 1 - r.1 + n) 0

end CodeRanges

end Jstn
