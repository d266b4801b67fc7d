import Jstn.Proofs.Parse.Derivation

/-!
# Layout and keyword case

The parser reads symbols: tokens without their text, names and illegal characters
(`Lexeme.symbol`).  A step depends on nothing else of a lexeme, up to the place of an error
(`Parse.State.unplaced_step`).  Blanks are skipped, and several line breaks in a row are as one
(`Parse.State.runSymbols_mergeBreaks`).  So what a text is parsed to is decided by its normal
form (`normalForm`, `Parse.unplaced_parseWithin`).

Line breaks can be merged because a line break is never an error and a second one changes
nothing: it ends a type or a property, or it is skipped (`Parse.State.step_newline`).
-/

namespace Jstn

open Parse

/-! ## Symbols -/

/-- What the parser reads of a lexeme. -/
inductive Symbol
  /-- A token whose text does not matter. -/
  | token (token : Token)
  /-- An identifier. -/
  | name (text : String)
  /-- A character that begins no token. -/
  | illegal (char : Char)
deriving DecidableEq, Repr, Inhabited

/-- The symbol of a lexeme. -/
def Lexeme.symbol : Lexeme → Symbol
  | .token .identifier name _ => .name name
  | .token t _ _ => .token t
  | .illegal c _ => .illegal c

/-- A symbol as a lexeme that stands nowhere. -/
def Symbol.lexeme : Symbol → Lexeme
  | .token t => .token t "" ⟨0, 0⟩
  | .name text => .token .identifier text ⟨0, 0⟩
  | .illegal c => .illegal c ⟨0, 0⟩

/-- Puts a symbol in front, unless that makes two line breaks in a row. -/
def Symbol.merge (x : Symbol) (xs : List Symbol) : List Symbol :=
  if x = .token .newline ∧ xs.head? = some (.token .newline) then xs else x :: xs

/-- The symbols with one line break for several in a row. -/
def mergeBreaks (xs : List Symbol) : List Symbol := xs.foldr Symbol.merge []

/-- The normal form of a text: its symbols without blanks and with line breaks merged. -/
def normalForm (source : String) : List Symbol :=
  mergeBreaks ((significant (tokenize source)).map Lexeme.symbol)

example : normalForm "\x7bA \t:nUlL\n \r\n\x7d" = normalForm "\x7b A:null\n\x7d" := by
  decide +kernel

/-! ## Errors without their places -/

/-- What an error says, without where it points. -/
inductive Complaint
  | illegalCharacter (char : Char)
  | unexpectedToken (expected : Expectation) (found : String)
  | unexpectedEnd (expected : Expectation)
  | unendedProperty (name : String) (found : String)
  | trailingInput (found : String)
  | tooDeep (limit : Nat)
deriving DecidableEq, Repr, Inhabited

/-- What an error says.  Of the lexeme it found it says only the description. -/
def ParseError.complaint : ParseError → Complaint
  | illegalCharacter char _ => .illegalCharacter char
  | unexpectedToken expected found => .unexpectedToken expected found.describe
  | unexpectedEnd expected => .unexpectedEnd expected
  | unendedProperty name found => .unendedProperty name found.describe
  | trailingInput found => .trailingInput found.describe
  | tooDeep limit _ => .tooDeep limit

namespace Parse

/-- A result without the place of its error. -/
def unplaced {α : Type} (r : Except ParseError α) : Except Complaint α :=
  r.mapError ParseError.complaint

namespace State

variable {limit : Option Nat} {l l' : Lexeme}

theorem unplaced_stepType (token : Token) (stack : List Frame) (h : l.describe = l'.describe) :
    unplaced (stepType limit stack token l) = unplaced (stepType limit stack token l') := by
  have hopened : ∀ inside, unplaced (stepType.opened limit stack l inside) =
      unplaced (stepType.opened limit stack l' inside) := by
    intro inside
    unfold stepType.opened
    split
    · split <;> rfl
    · rfl
  unfold stepType
  split
  · rfl
  · exact hopened _
  · exact hopened _
  · split
    · rfl
    · simp only [unplaced, Except.mapError, ParseError.complaint, h]

theorem unplaced_stepTyped (token : Token) (stack : List Frame) (t : Schema)
    (h : l.describe = l'.describe) :
    unplaced (stepTyped stack t token l) = unplaced (stepTyped stack t token l') := by
  unfold stepTyped
  split <;> split <;> simp only [unplaced, Except.mapError, ParseError.complaint, h]

/-- The parser reads the text of a name only. -/
theorem unplaced_stepToken (s : State) {token : Token} (h : l.describe = l'.describe)
    (hname : token = .identifier → l.text = l'.text) :
    unplaced (stepToken limit s token l) = unplaced (stepToken limit s token l') := by
  unfold stepToken
  split
  · exact unplaced_stepType token _ h
  · split
    · rfl
    · rfl
    · exact unplaced_stepType token _ h
  · split
    · rfl
    · exact unplaced_stepTyped token _ _ h
  · exact unplaced_stepTyped token _ _ h
  · split
    · rfl
    · rfl
    · rw [hname rfl]
    · simp only [unplaced, Except.mapError, ParseError.complaint, h]
  · split
    · rfl
    · rfl
    · simp only [unplaced, Except.mapError, ParseError.complaint, h]

/-- A step depends on the symbol of its lexeme, up to the place of an error. -/
theorem unplaced_step (s : State) (l : Lexeme) :
    unplaced (step limit s l) = unplaced (step limit s l.symbol.lexeme) := by
  cases l with
  | illegal char span => rfl
  | token token text span =>
      by_cases hblank : token = .whitespace
      · rw [hblank]
        rfl
      · have hl : Is token (.token token text span) := rfl
        have hl' : Is token (Lexeme.token token text span).symbol.lexeme := by
          cases token <;> rfl
        rw [step_token hl hblank, step_token hl' hblank]
        refine unplaced_stepToken s ?_ ?_
        · cases token <;> first | rfl | exact absurd rfl hblank
        · rintro rfl
          rfl

/-! ## Runs over symbols -/

/-- The machine takes one symbol. -/
def stepSymbol (limit : Option Nat) (s : State) (x : Symbol) : Except Complaint State :=
  unplaced (step limit s x.lexeme)

/-- The machine takes symbols in turn, up to the first error. -/
def runSymbols (limit : Option Nat) (s : State) (xs : List Symbol) : Except Complaint State :=
  xs.foldlM (stepSymbol limit) s

theorem unplaced_run (s : State) (ls : List Lexeme) :
    unplaced (run limit s ls) = runSymbols limit s (ls.map Lexeme.symbol) := by
  induction ls generalizing s with
  | nil => rfl
  | cons l ls ih =>
      rw [run, runSymbols, List.map_cons, List.foldlM_cons, List.foldlM_cons, stepSymbol,
        ← unplaced_step]
      cases step limit s l with
      | ok s' => exact ih s'
      | error e => rfl

/-- A line break is no error, and a second one changes nothing. -/
theorem step_newline (limit : Option Nat) (s : State) :
    ∃ s', stepSymbol limit s (.token .newline) = .ok s' ∧
      stepSymbol limit s' (.token .newline) = .ok s' := by
  obtain ⟨stack, point⟩ := s
  cases point with
  | declared t | typed t =>
      match stack with
      | [] | .array :: outer | .object done name :: outer => exact ⟨_, rfl, rfl⟩
  | typeDue | itemsDue | propertyDue _ | colonDue _ _ => exact ⟨_, rfl, rfl⟩

theorem runSymbols_cons {s s' : State} {x : Symbol} (xs : List Symbol)
    (h : stepSymbol limit s x = .ok s') :
    runSymbols limit s (x :: xs) = runSymbols limit s' xs := by
  rw [runSymbols, List.foldlM_cons, h]
  rfl

theorem runSymbols_merge (s : State) (x : Symbol) (xs : List Symbol) :
    runSymbols limit s (x.merge xs) = runSymbols limit s (x :: xs) := by
  rw [Symbol.merge]
  split
  next h =>
    obtain ⟨rfl, hxs⟩ := h
    obtain ⟨rest, rfl⟩ := List.head?_eq_some_iff.mp hxs
    obtain ⟨s', hs, hs'⟩ := step_newline limit s
    rw [runSymbols_cons rest hs, runSymbols_cons _ hs, runSymbols_cons rest hs']
  next => rfl

/-- One line break is as good as several in a row. -/
theorem runSymbols_mergeBreaks (s : State) (xs : List Symbol) :
    runSymbols limit s (mergeBreaks xs) = runSymbols limit s xs := by
  induction xs generalizing s with
  | nil => rfl
  | cons x xs ih =>
      rw [mergeBreaks, List.foldr_cons, runSymbols_merge, runSymbols, runSymbols,
        List.foldlM_cons, List.foldlM_cons]
      cases stepSymbol limit s x with
      | ok s' => exact ih s'
      | error e => rfl

end State

/-- Reads symbols as one schema. -/
def ofSymbols (limit : Option Nat) (xs : List Symbol) : Except Complaint Schema :=
  match State.start.runSymbols limit xs with
  | .ok s => unplaced s.finish
  | .error e => .error e

theorem unplaced_ofLexemes (limit : Option Nat) (ls : List Lexeme) :
    unplaced (ofLexemes limit ls) = ofSymbols limit (ls.map Lexeme.symbol) := by
  rw [ofSymbols, ← State.unplaced_run, ofLexemes]
  cases State.start.run limit ls with
  | ok s => rfl
  | error e => rfl

/-- The normal form of a text decides what it is parsed to, up to the place of an error. -/
theorem unplaced_parseWithin (limit : Option Nat) (source : String) :
    unplaced (parseWithin limit source) = ofSymbols limit (normalForm source) := by
  rw [parseWithin, ← ofLexemes_significant, unplaced_ofLexemes, ofSymbols, ofSymbols, normalForm,
    State.runSymbols_mergeBreaks]

theorem eq_ok_of_unplaced {α : Type} {r : Except ParseError α} {a : α}
    (h : unplaced r = .ok a) : r = .ok a := by
  cases r with
  | ok b =>
      cases h
      rfl
  | error e => cases h

theorem eq_error_of_unplaced {α : Type} {r : Except ParseError α} {complaint : Complaint}
    (h : unplaced r = .error complaint) : ∃ e, r = .error e ∧ e.complaint = complaint := by
  cases r with
  | ok b => cases h
  | error e =>
      cases h
      exact ⟨e, rfl, rfl⟩

end Parse

/-- Texts of one normal form are parsed to one tree, or they are refused with errors that say
the same. -/
theorem parse_of_normalForm_eq {source source' : String}
    (h : normalForm source = normalForm source') :
    (∃ t, parse source = .ok t ∧ parse source' = .ok t) ∨
      ∃ e e', parse source = .error e ∧ parse source' = .error e' ∧
        e.complaint = e'.complaint := by
  have hsame : unplaced (parse source) = unplaced (parse source') := by
    rw [parse, parse, unplaced_parseWithin, unplaced_parseWithin, h]
  cases hparse : parse source with
  | ok t =>
      rw [hparse] at hsame
      exact Or.inl ⟨t, rfl, eq_ok_of_unplaced hsame.symm⟩
  | error e =>
      rw [hparse] at hsame
      obtain ⟨e', he', hcomplaint⟩ := eq_error_of_unplaced hsame.symm
      exact Or.inr ⟨e, e', rfl, he', hcomplaint.symm⟩

/-- Two line breaks with a blank between them are as one, also where the text is refused. -/
theorem parse_of_normalForm_eq_splitBreaks :
    let source := "[String\n \nNULL]"
    let source' := "[ string\r\n\tnull ]"
    normalForm source = normalForm source' ∧
      ∃ e e', parse source = .error e ∧ parse source' = .error e' ∧
        e.complaint = .unexpectedToken (.token .closeBracket) "'null'" ∧
        e.complaint = e'.complaint := by
  intro source source'
  have hnormal : normalForm source = normalForm source' := by decide +kernel
  have hparse : parse source = .error
      (.unexpectedToken (.token .closeBracket) (.token .null "NULL" ⟨10, 14⟩)) := by
    decide +kernel
  refine ⟨hnormal, ?_⟩
  rcases parse_of_normalForm_eq hnormal with ⟨t, ht, -⟩ | ⟨e, e', he, he', hcomplaint⟩
  · cases hparse.symm.trans ht
  · cases hparse.symm.trans he
    exact ⟨_, e', hparse, he', rfl, hcomplaint⟩

end Jstn
