import Jstn.Text.CodeRanges

/-!
# Ignorable characters

A character is ignorable if nothing is drawn for it, and it is meant so: joiners,
direction marks, variation selectors, and the fillers that stand for an absent
letter of a Hangul syllable.  A filler is a letter, so it is neither unprintable
nor extending.  The ranges are those of the property
Default_Ignorable_Code_Point of Unicode 17.
-/

namespace Jstn

namespace Text

/-- The ignorable code points. -/
def ignorable : CodeRanges :=
  [(0xAD, 0xAD), (0x34F, 0x34F), (0x61C, 0x61C), (0x115F, 0x1160), (0x17B4, 0x17B5),
   (0x180B, 0x180F), (0x200B, 0x200F), (0x202A, 0x202E), (0x2060, 0x206F), (0x3164, 0x3164),
   (0xFE00, 0xFE0F), (0xFEFF, 0xFEFF), (0xFFA0, 0xFFA0), (0xFFF0, 0xFFF8), (0x1BCA0, 0x1BCA3),
   (0x1D173, 0x1D17A), (0xE0000, 0xE0FFF)]

/-- Whether nothing is drawn for a character. -/
def isIgnorable (c : Char) : Bool := ignorable.contains c.toNat

example : ignorable.AscendingFrom 0 := by decide
example : ignorable.length = 17 ∧ ignorable.count = 4174 := by decide
example : ['\u00ad', '\u115f', '\u1160', '\u3164', '\uffa0'].all isIgnorable := by decide
example : ['a', ' ', '\u1100', '\u1161', '\u3131', '\uffa1'].any isIgnorable = false := by decide

end Text

end Jstn
