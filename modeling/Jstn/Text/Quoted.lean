import Jstn.Text.Extending
import Jstn.Text.Ignorable
import Jstn.Text.Unprintable

/-!
# Quoted text in messages

A message that shows a whole text puts it in double quotes.  Quotes and
backslashes are escaped, and so is each character that a reader might not see
for what it is: the unprintable ones, the ignorable ones, and the ones that are
drawn on the character before.  So the text stays on one line, no part of it is
out of sight, and a mark at its start is not drawn on the opening quote.
-/

namespace Jstn

namespace Text

/-- Whether a character is shown by its code point. -/
def isHidden (c : Char) : Bool := isExtending c || isIgnorable c || isUnprintable c

/-- The escaped form of one character. -/
def quotedChar (c : Char) : List Char :=
  match c with
  | '\x00' => ['\\', '0']
  | '\t' => ['\\', 't']
  | '\n' => ['\\', 'n']
  | '\r' => ['\\', 'r']
  | '"' => ['\\', '"']
  | '\\' => ['\\', '\\']
  | _ =>
      if isHidden c then ['\\', 'u', '{'] ++ Nat.toDigits 16 c.toNat ++ ['}']
      else [c]

/-- A text in double quotes. -/
def quoted (text : String) : String :=
  String.ofList ('"' :: text.toList.flatMap quotedChar ++ ['"'])

example : quoted "it's\t\x1b" = "\"it's\\t\\u\x7b1b\x7d\"" := by decide +kernel
example : quoted "a\u115f" = "\"a\\u\x7b115f\x7d\"" := by decide +kernel
example : quoted "\u0301é\ufeff" = "\"\\u\x7b301\x7dé\\u\x7bfeff\x7d\"" := by decide +kernel

end Text

end Jstn
