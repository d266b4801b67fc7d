import Jstn.Parse
import Jstn.Proofs.Schema

/-!
# The grammar of schema text

`Derives phrase x` says that lexemes `x` are a phrase of the grammar.  A phrase
comes with what it stands for, so a derivation is at once a parse and its tree.
Blanks are not part of it, they are dropped first (`significant`).

Line breaks may stand before a declaration, a name, a colon and a closing
bracket.  They may not stand before a `?`.  A property ends with a `;` or with
one line break, and the last one may do without an end if the closing bracket
follows at once.  A name may be declared more than once, and its last type counts
(`NameMap.find?_ofPairs`).

`Spells t x` says that `x` is a whole schema text for `t`, and `NestsWithin` that
no more than so many brackets are ever open in it.
-/

namespace Jstn

namespace Parse

/-- The lexeme is a token of this class. -/
def Is (token : Token) (l : Lexeme) : Prop := l.token? = some token

/-- The lexemes that are not blanks. -/
def significant (ls : List Lexeme) : List Lexeme :=
  ls.filter fun l => l.token? ≠ some .whitespace

/-- A run of line breaks, which may be empty. -/
def Breaks (w : List Lexeme) : Prop := ∀ l ∈ w, Is .newline l

/-- What the grammar has rules for, and what it stands for. -/
inductive Phrase
  /-- A declaration and, if it is optional, its mark. -/
  | type (t : Schema)
  /-- A declaration without a mark. -/
  | declaration (t : Schema)
  /-- A name, a colon and a type. -/
  | property (name : String) (t : Schema)
  /-- Properties with their ends, in the order of the text. -/
  | properties (ps : List (String × Schema))

/-- Lexemes that are a phrase of the grammar. -/
inductive Derives : Phrase → List Lexeme → Prop
  | required {t : Schema} {x : List Lexeme} :
      Derives (.declaration t) x → Derives (.type t) x
  | optional {t : Schema} {x : List Lexeme} {mark : Lexeme} :
      Derives (.declaration t) x → Is .question mark → Derives (.type t.asOptional) (x ++ [mark])
  | keyword {w : List Lexeme} {word : Lexeme} {token : Token} {kind : Kind} :
      Breaks w → Is token word → token.kind? = some kind →
      Derives (.declaration (.ofKind kind)) (w ++ [word])
  | emptyArray {w w' : List Lexeme} {opening closing : Lexeme} :
      Breaks w → Is .openBracket opening → Breaks w' → Is .closeBracket closing →
      Derives (.declaration .emptyArray) (w ++ opening :: (w' ++ [closing]))
  | array {w w' x : List Lexeme} {opening closing : Lexeme} {t : Schema} :
      Breaks w → Is .openBracket opening → Derives (.type t) x → Breaks w' →
      Is .closeBracket closing →
      Derives (.declaration (.array t)) (w ++ opening :: (x ++ (w' ++ [closing])))
  | object {w w' x : List Lexeme} {opening closing : Lexeme} {ps : List (String × Schema)} :
      Breaks w → Is .openBrace opening → Derives (.properties ps) x → Breaks w' →
      Is .closeBrace closing →
      Derives (.declaration (.object ps)) (w ++ opening :: (x ++ (w' ++ [closing])))
  /-- An object whose last property has no end. -/
  | objectUnended {w x y : List Lexeme} {opening closing : Lexeme} {ps : List (String × Schema)}
      {name : String} {t : Schema} :
      Breaks w → Is .openBrace opening → Derives (.properties ps) x →
      Derives (.property name t) y → Is .closeBrace closing →
      Derives (.declaration (.object (ps ++ [(name, t)]))) (w ++ opening :: (x ++ (y ++ [closing])))
  | property {w w' x : List Lexeme} {word colon : Lexeme} {t : Schema} :
      Breaks w → Is .identifier word → Breaks w' → Is .colon colon → Derives (.type t) x →
      Derives (.property word.text t) (w ++ word :: (w' ++ colon :: x))
  | noProperties : Derives (.properties []) []
  | moreProperties {x y : List Lexeme} {mark : Lexeme} {ps : List (String × Schema)}
      {name : String} {t : Schema} :
      Derives (.properties ps) x → Derives (.property name t) y →
      Is .semicolon mark ∨ Is .newline mark →
      Derives (.properties (ps ++ [(name, t)])) (x ++ (y ++ [mark]))

/-- Lexemes that are the text of a schema, with line breaks around it. -/
def Spells (t : Schema) (ls : List Lexeme) : Prop :=
  ∃ w x w', ls = w ++ (x ++ w') ∧ Breaks w ∧ Derives (.type t) x ∧ Breaks w'

/-- Whether a lexeme is a bracket that opens an array or an object. -/
def opens (l : Lexeme) : Bool := l.token? = some .openBracket || l.token? = some .openBrace

/-- Whether a lexeme is a bracket that closes an array or an object. -/
def closes (l : Lexeme) : Bool := l.token? = some .closeBracket || l.token? = some .closeBrace

/-- At no point more than `n` brackets are open. -/
def NestsWithin (n : Nat) (ls : List Lexeme) : Prop :=
  ∀ x, x <+: ls → x.countP opens ≤ x.countP closes + n

end Parse

end Jstn
