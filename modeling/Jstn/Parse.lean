import Jstn.Parse.State
import Jstn.Text.Quoted

/-!
# Reading schema text

`parse` reads a whole text as one schema, or gives the first error.  Arrays and
objects nest `maxDepth` levels at most.  `parseWithin` takes the limit as an
argument and can do without one.
-/

namespace Jstn

/-- The number of arrays and objects that may be open at once. -/
def maxDepth : Nat := 128

/-- Reads lexemes as one schema. -/
def Parse.ofLexemes (limit : Option Nat) (lexemes : List Lexeme) : Except ParseError Schema :=
  match Parse.State.start.run limit lexemes with
  | .ok s => s.finish
  | .error e => .error e

/-- Reads schema text whose brackets nest no deeper than the limit, if there is
one. -/
def parseWithin (limit : Option Nat) (source : String) : Except ParseError Schema :=
  Parse.ofLexemes limit (tokenize source)

/-- Reads schema text. -/
def parse (source : String) : Except ParseError Schema := parseWithin (some maxDepth) source

/-- Reads schema text that a program carries in itself.  It is an error of the
program if the text is refused, so the message shows the text. -/
def parseBuiltIn (source : String) : Except String Schema :=
  match parse source with
  | .ok t => .ok t
  | .error e => .error ("invalid built-in schema " ++ Text.quoted source ++ ": " ++ e.message)

example : parse "\x7ba: [string]?\n b: \x7b\x7d; \x7d" =
    .ok (.object [("a", (Schema.array .string).asOptional), ("b", .object [])]) := by
  cbv
example : parse "string\n?" = .error (.trailingInput (.token .question "?" ⟨7, 8⟩)) := by
  cbv
example : parseWithin (some 1) "[[]]" = .error (.tooDeep 1 ⟨1, 2⟩) := by cbv

end Jstn
