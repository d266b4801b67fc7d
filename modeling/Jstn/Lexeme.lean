import Jstn.Token

/-!
# Lexemes

A scanner splits schema text into lexemes, from left to right and without
loss.  Each lexeme is as long as it can be: a run of blanks, a run of line
breaks or a word is never cut short.  A character that begins no token is a
lexeme of its own, whatever follows it.

`scan` takes one lexeme off the front and `tokenize` takes all of them.  At the
end of the text `scan` finds nothing, and keeps finding nothing.

Where a lexeme stands is counted in UTF-8 bytes (`Span`).
-/

namespace Jstn

/-- A stretch of source text. -/
structure Span where
  /-- The offset of its first byte. -/
  start : Nat
  /-- The offset just after its last byte. -/
  stop : Nat
deriving DecidableEq, Repr, Inhabited

namespace Span

/-- The span as messages show it. -/
def render (s : Span) : String := toString s.start ++ ".." ++ toString s.stop

example : (Span.mk 10 20).render = "10..20" := by decide

end Span

/-- A piece of schema text and where it stands. -/
inductive Lexeme
  /-- Text that is a token. -/
  | token (token : Token) (text : String) (span : Span)
  /-- A character that begins no token. -/
  | illegal (char : Char) (span : Span)
deriving DecidableEq, Repr, Inhabited

namespace Lexeme

/-- The token of a lexeme, if it is one. -/
def token? : Lexeme → Option Token
  | token t _ _ => some t
  | illegal _ _ => none

/-- Where a lexeme stands. -/
def span : Lexeme → Span
  | token _ _ s => s
  | illegal _ s => s

/-- The text of a lexeme. -/
def text : Lexeme → String
  | token _ t _ => t
  | illegal c _ => c.toString

/-- How messages name a lexeme.  The text is shown where the token does not
tell it. -/
def describe : Lexeme → String
  | token .identifier text _ => Token.identifier.description ++ " ('" ++ text ++ "')"
  | token .whitespace text _ => Token.whitespace.description ++ " ('" ++ text ++ "')"
  | token t _ _ => t.description
  | illegal c _ => "illegal character '" ++ c.toString ++ "'"

/-- How messages name what a scan found. -/
def describeScan : Option Lexeme → String
  | some lexeme => lexeme.describe
  | none => "end of input"

end Lexeme

/-- The number of bytes that characters take in UTF-8. -/
def utf8Length (cs : List Char) : Nat := cs.foldr (fun c n => c.utf8Size + n) 0

/-- The token that `c` begins, if it begins one, and the characters after it
that belong to the same lexeme. -/
def munch (c : Char) (cs : List Char) : Option Token × List Char :=
  if isBlank c then (some .whitespace, cs.takeWhile isBlank)
  else if isBreak c then (some .newline, cs.takeWhile isBreak)
  else if isWordStart c then
    (some (Token.ofWord (c :: cs.takeWhile isWordPart)), cs.takeWhile isWordPart)
  else (Token.ofPunctuation? c, [])

/-- A place in schema text. -/
structure Scanner where
  /-- The unread characters. -/
  rest : List Char
  /-- The number of bytes read. -/
  offset : Nat
deriving DecidableEq, Repr, Inhabited

namespace Scanner

/-- The start of a text. -/
def ofSource (source : String) : Scanner := ⟨source.toList, 0⟩

/-- Takes the first lexeme off the unread text. -/
def scan : Scanner → Option Lexeme × Scanner
  | ⟨[], offset⟩ => (none, ⟨[], offset⟩)
  | ⟨c :: cs, offset⟩ =>
      let more := (munch c cs).2
      let stop := offset + utf8Length (c :: more)
      let lexeme :=
        match (munch c cs).1 with
        | some token => Lexeme.token token (String.ofList (c :: more)) ⟨offset, stop⟩
        | none => Lexeme.illegal c ⟨offset, stop⟩
      (some lexeme, ⟨cs.drop more.length, stop⟩)

/-- A scan that finds a lexeme leaves less to read. -/
theorem scan_shorter {s : Scanner} {lexeme : Lexeme} {next : Scanner}
    (h : s.scan = (some lexeme, next)) : next.rest.length < s.rest.length := by
  match s, h with
  | ⟨c :: cs, offset⟩, h =>
      obtain ⟨-, rfl⟩ := Prod.mk.inj h
      simp only [List.length_drop, List.length_cons]
      omega

/-- All lexemes of the unread text. -/
def lexemes (s : Scanner) : List Lexeme :=
  match h : s.scan with
  | (some lexeme, next) =>
      have := scan_shorter h
      lexeme :: next.lexemes
  | (none, _) => []
termination_by s.rest.length

end Scanner

/-- The lexemes of schema text. -/
def tokenize (source : String) : List Lexeme := (Scanner.ofSource source).lexemes

example : (tokenize "\x7ba1: Any?\r\n\x7d").filterMap Lexeme.token? =
    [.openBrace, .identifier, .colon, .whitespace, .any, .question, .newline, .closeBrace] := by
  decide +kernel
example : (tokenize "9_é").map Lexeme.span = [⟨0, 1⟩, ⟨1, 2⟩, ⟨2, 4⟩] := by decide +kernel

end Jstn
