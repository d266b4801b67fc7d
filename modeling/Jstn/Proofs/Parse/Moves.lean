import Jstn.Proofs.Parse.Grammar

/-!
# What the parser can do

`Moves` lists the moves of the parser, one constructor each, and `Fits` says when a
bracket is within the limit.  The machine takes a lexeme just if there is a move for
it that fits (`step_iff`), so whatever holds of all moves holds of every run.
-/

namespace Jstn

namespace Parse

/-- The type that has been read at a point. -/
def Point.type? : Point → Option Schema
  | declared t | typed t => some t
  | typeDue | itemsDue | propertyDue _ | colonDue .. => none

/-- The frames around the type that is due. -/
def State.typeStack? (s : State) : Option (List Frame) :=
  match s.point with
  | .typeDue => some s.stack
  | .itemsDue => some (.array :: s.stack)
  | .declared _ | .typed _ | .propertyDue _ | .colonDue .. => none

/-- The innermost frame is no object. -/
def NoProperty : List Frame → Prop
  | .object .. :: _ => False
  | [] | .array :: _ => True

/-- The moves of the parser. -/
inductive Moves : State → Lexeme → State → Prop
  | typeBreak {stack : List Frame} {l : Lexeme} :
      Is .newline l → Moves ⟨stack, .typeDue⟩ l ⟨stack, .typeDue⟩
  | itemsBreak {stack : List Frame} {l : Lexeme} :
      Is .newline l → Moves ⟨stack, .itemsDue⟩ l ⟨stack, .itemsDue⟩
  | openArray {s : State} {stack : List Frame} {l : Lexeme} :
      s.typeStack? = some stack → Is .openBracket l → Moves s l ⟨stack, .itemsDue⟩
  | openObject {s : State} {stack : List Frame} {l : Lexeme} :
      s.typeStack? = some stack → Is .openBrace l → Moves s l ⟨stack, .propertyDue []⟩
  | keyword {s : State} {stack : List Frame} {l : Lexeme} {token : Token} {kind : Kind} :
      s.typeStack? = some stack → Is token l → token.kind? = some kind →
      Moves s l ⟨stack, .declared (.ofKind kind)⟩
  | emptyArray {stack : List Frame} {l : Lexeme} :
      Is .closeBracket l → Moves ⟨stack, .itemsDue⟩ l ⟨stack, .declared .emptyArray⟩
  | question {stack : List Frame} {t : Schema} {l : Lexeme} :
      Is .question l → Moves ⟨stack, .declared t⟩ l ⟨stack, .typed t.asOptional⟩
  | typedBreak {stack : List Frame} {point : Point} {t : Schema} {l : Lexeme} :
      point.type? = some t → NoProperty stack → Is .newline l →
      Moves ⟨stack, point⟩ l ⟨stack, .typed t⟩
  | closeArray {outer : List Frame} {point : Point} {t : Schema} {l : Lexeme} :
      point.type? = some t → Is .closeBracket l →
      Moves ⟨.array :: outer, point⟩ l ⟨outer, .declared (.array t)⟩
  | endProperty {outer : List Frame} {done : List (String × Schema)} {name : String}
      {point : Point} {t : Schema} {l : Lexeme} :
      point.type? = some t → Is .semicolon l ∨ Is .newline l →
      Moves ⟨.object done name :: outer, point⟩ l
        ⟨outer, .propertyDue (NameMap.insert name t done)⟩
  | closeTyped {outer : List Frame} {done : List (String × Schema)} {name : String}
      {point : Point} {t : Schema} {l : Lexeme} :
      point.type? = some t → Is .closeBrace l →
      Moves ⟨.object done name :: outer, point⟩ l
        ⟨outer, .declared { kind := .object, properties := NameMap.insert name t done }⟩
  | propertyBreak {stack : List Frame} {done : List (String × Schema)} {l : Lexeme} :
      Is .newline l → Moves ⟨stack, .propertyDue done⟩ l ⟨stack, .propertyDue done⟩
  | closeObject {stack : List Frame} {done : List (String × Schema)} {l : Lexeme} :
      Is .closeBrace l →
      Moves ⟨stack, .propertyDue done⟩ l
        ⟨stack, .declared { kind := .object, properties := done }⟩
  | name {stack : List Frame} {done : List (String × Schema)} {l : Lexeme} :
      Is .identifier l →
      Moves ⟨stack, .propertyDue done⟩ l ⟨stack, .colonDue done l.text⟩
  | colonBreak {stack : List Frame} {done : List (String × Schema)} {name : String} {l : Lexeme} :
      Is .newline l → Moves ⟨stack, .colonDue done name⟩ l ⟨stack, .colonDue done name⟩
  | colon {stack : List Frame} {done : List (String × Schema)} {name : String} {l : Lexeme} :
      Is .colon l →
      Moves ⟨stack, .colonDue done name⟩ l ⟨.object done name :: stack, .typeDue⟩

/-- A bracket that opens is within the limit. -/
def Fits (limit : Option Nat) (s : State) (l : Lexeme) : Prop :=
  opens l = true → ∀ n, limit = some n → s.depth < n

theorem opens_of_is {token : Token} {l : Lexeme} (h : Is token l) :
    opens l = decide (token = .openBracket ∨ token = .openBrace) := by
  simp only [opens, show l.token? = some token from h, Option.some.injEq, Bool.decide_or]

theorem closes_of_is {token : Token} {l : Lexeme} (h : Is token l) :
    closes l = decide (token = .closeBracket ∨ token = .closeBrace) := by
  simp only [closes, show l.token? = some token from h, Option.some.injEq, Bool.decide_or]

theorem not_bracket_of_kind {token : Token} {kind : Kind} (h : token.kind? = some kind) :
    (token ≠ .openBracket ∧ token ≠ .openBrace) ∧ token ≠ .closeBracket ∧ token ≠ .closeBrace := by
  cases token <;> cases h <;> decide

theorem depth_typeStack {s : State} {stack : List Frame} (h : s.typeStack? = some stack) :
    s.depth = stack.length := by
  obtain ⟨outer, point⟩ := s
  cases point with
  | typeDue | itemsDue =>
      cases h
      rfl
  | declared _ | typed _ | propertyDue _ | colonDue _ _ => cases h

theorem depth_type {stack : List Frame} {point : Point} {t : Schema}
    (h : point.type? = some t) : State.depth ⟨stack, point⟩ = stack.length := by
  cases point with
  | declared _ | typed _ => rfl
  | typeDue | itemsDue | propertyDue _ | colonDue _ _ => cases h

/-- A bracket opens where a type is due. -/
theorem typeStack_of_opens {s s' : State} {l : Lexeme} (h : Moves s l s')
    (ho : opens l = true) : ∃ stack, s.typeStack? = some stack := by
  cases h with
  | openArray hs _ | openObject hs _ | keyword hs _ _ => exact ⟨_, hs⟩
  | typeBreak hl | itemsBreak hl | emptyArray hl | question hl | typedBreak _ _ hl
  | closeArray _ hl | closeTyped _ hl | propertyBreak hl | closeObject hl | name hl
  | colonBreak hl | colon hl =>
      rw [opens_of_is hl] at ho
      cases ho
  | endProperty _ hl =>
      rcases hl with hl | hl <;> (rw [opens_of_is hl] at ho; cases ho)

/-- A move counts the open brackets. -/
theorem moves_depth {s s' : State} {l : Lexeme} (h : Moves s l s') :
    s'.depth + (if closes l then 1 else 0) = s.depth + (if opens l then 1 else 0) := by
  cases h with
  | typeBreak hl | itemsBreak hl | question hl | propertyBreak hl | name hl | colonBreak hl
  | emptyArray hl | closeObject hl | colon hl =>
      rw [opens_of_is hl, closes_of_is hl]
      rfl
  | openArray hs hl | openObject hs hl =>
      rw [opens_of_is hl, closes_of_is hl, depth_typeStack hs]
      rfl
  | keyword hs hl hk =>
      obtain ⟨hopen, hclose⟩ := not_bracket_of_kind hk
      rw [opens_of_is hl, closes_of_is hl, depth_typeStack hs]
      simp [hopen, hclose, State.depth]
  | typedBreak hp _ hl =>
      rw [opens_of_is hl, closes_of_is hl, depth_type hp]
      rfl
  | closeArray hp hl | closeTyped hp hl =>
      rw [opens_of_is hl, closes_of_is hl, depth_type hp]
      rfl
  | endProperty hp hl =>
      rcases hl with hl | hl <;>
        (rw [opens_of_is hl, closes_of_is hl, depth_type hp]; rfl)

namespace State

variable {limit : Option Nat}

theorem step_token {s : State} {token : Token} {l : Lexeme} (h : Is token l)
    (hw : token ≠ .whitespace) : step limit s l = stepToken limit s token l := by
  match l, h with
  | .token token' text span, h =>
      obtain rfl : token' = token := Option.some.inj h
      unfold step
      split
      next heq => cases heq
      next heq => cases heq; exact absurd rfl hw
      next heq => cases heq; rfl

theorem step_whitespace {s : State} {l : Lexeme} (h : Is .whitespace l) :
    step limit s l = .ok s := by
  match l, h with
  | .token token' text span, h =>
      obtain rfl : token' = .whitespace := Option.some.inj h
      rfl

theorem opened_iff {stack : List Frame} {l : Lexeme} {inside s : State} :
    stepType.opened limit stack l inside = .ok s ↔
      s = inside ∧ ∀ n, limit = some n → stack.length < n := by
  unfold stepType.opened
  cases limit with
  | none =>
      constructor
      · intro h
        exact ⟨(Except.ok.inj h).symm, nofun⟩
      · rintro ⟨rfl, -⟩
        rfl
  | some n =>
      by_cases hn : stack.length < n
      · simp only [if_pos hn]
        constructor
        · intro h
          refine ⟨(Except.ok.inj h).symm, ?_⟩
          rintro m hm
          cases hm
          exact hn
        · rintro ⟨rfl, -⟩
          rfl
      · simp only [if_neg hn]
        constructor
        · nofun
        · rintro ⟨-, hroom⟩
          exact absurd (hroom n rfl) hn

/-- A token where a type is due. -/
theorem moves_of_stepType {s s' : State} {stack : List Frame} {token : Token} {l : Lexeme}
    (hs : s.typeStack? = some stack) (hl : Is token l)
    (h : stepType limit stack token l = .ok s') :
    (token = .newline ∧ s' = ⟨stack, .typeDue⟩) ∨ Moves s l s' := by
  unfold stepType at h
  split at h
  next => exact Or.inl ⟨rfl, (Except.ok.inj h).symm⟩
  next =>
    obtain ⟨rfl, -⟩ := opened_iff.mp h
    exact Or.inr (.openArray hs hl)
  next =>
    obtain ⟨rfl, -⟩ := opened_iff.mp h
    exact Or.inr (.openObject hs hl)
  next =>
    split at h
    next kind hk =>
      obtain rfl := Except.ok.inj h
      exact Or.inr (.keyword hs hl hk)
    next => cases h

/-- A token after a type. -/
theorem moves_of_stepTyped {stack : List Frame} {point : Point} {t : Schema} {s : State}
    {token : Token} {l : Lexeme} (hp : point.type? = some t) (hl : Is token l)
    (h : stepTyped stack t token l = .ok s) : Moves ⟨stack, point⟩ l s := by
  unfold stepTyped at h
  split at h
  next =>
    split at h
    next =>
      obtain rfl := Except.ok.inj h
      exact .typedBreak hp trivial hl
    next => cases h
  next =>
    split at h
    next =>
      obtain rfl := Except.ok.inj h
      exact .typedBreak hp trivial hl
    next =>
      obtain rfl := Except.ok.inj h
      exact .closeArray hp hl
    next => cases h
  next =>
    split at h
    next =>
      obtain rfl := Except.ok.inj h
      exact .endProperty hp (Or.inr hl)
    next =>
      obtain rfl := Except.ok.inj h
      exact .endProperty hp (Or.inl hl)
    next =>
      obtain rfl := Except.ok.inj h
      exact .closeTyped hp hl
    next => cases h

theorem moves_of_stepToken {s s' : State} {token : Token} {l : Lexeme} (hl : Is token l)
    (h : stepToken limit s token l = .ok s') : Moves s l s' := by
  match s with
  | ⟨stack, .typeDue⟩ =>
      have hs : typeStack? ⟨stack, .typeDue⟩ = some stack := rfl
      rcases moves_of_stepType hs hl h with ⟨rfl, rfl⟩ | hm
      · exact .typeBreak hl
      · exact hm
  | ⟨stack, .itemsDue⟩ =>
      simp only [stepToken] at h
      split at h
      next =>
        obtain rfl := Except.ok.inj h
        exact .itemsBreak hl
      next =>
        obtain rfl := Except.ok.inj h
        exact .emptyArray hl
      next hne _ =>
        have hs : typeStack? ⟨stack, .itemsDue⟩ = some (.array :: stack) := rfl
        rcases moves_of_stepType hs hl h with ⟨rfl, -⟩ | hm
        · exact absurd rfl hne
        · exact hm
  | ⟨stack, .declared t⟩ =>
      simp only [stepToken] at h
      split at h
      next =>
        obtain rfl := Except.ok.inj h
        exact .question hl
      next => exact moves_of_stepTyped rfl hl h
  | ⟨stack, .typed t⟩ => exact moves_of_stepTyped rfl hl h
  | ⟨stack, .propertyDue done⟩ =>
      simp only [stepToken] at h
      split at h
      next =>
        obtain rfl := Except.ok.inj h
        exact .propertyBreak hl
      next =>
        obtain rfl := Except.ok.inj h
        exact .closeObject hl
      next =>
        obtain rfl := Except.ok.inj h
        exact .name hl
      next => cases h
  | ⟨stack, .colonDue done name⟩ =>
      simp only [stepToken] at h
      split at h
      next =>
        obtain rfl := Except.ok.inj h
        exact .colonBreak hl
      next =>
        obtain rfl := Except.ok.inj h
        exact .colon hl
      next => cases h

theorem stepToken_type (token : Token) {s : State} {stack : List Frame} {l : Lexeme}
    (hs : s.typeStack? = some stack) (hn : token ≠ .newline) (hc : token ≠ .closeBracket) :
    stepToken limit s token l = stepType limit stack token l := by
  match s, hs with
  | ⟨stack, .typeDue⟩, hs =>
      cases hs
      rfl
  | ⟨stack, .itemsDue⟩, hs =>
      cases hs
      simp only [stepToken]

theorem step_type? {stack : List Frame} {point : Point} {t : Schema} {token : Token} {l : Lexeme}
    (hp : point.type? = some t) (hl : Is token l) (hw : token ≠ .whitespace)
    (hq : token ≠ .question) : step limit ⟨stack, point⟩ l = stepTyped stack t token l := by
  rw [step_token hl hw]
  cases point with
  | declared t' =>
      cases hp
      simp only [stepToken]
  | typed t' =>
      cases hp
      rfl
  | typeDue | itemsDue | propertyDue _ | colonDue _ _ => cases hp

theorem step_of_moves {s s' : State} {l : Lexeme} (h : Moves s l s') (hf : Fits limit s l) :
    step limit s l = .ok s' := by
  cases h with
  | typeBreak hl | itemsBreak hl | emptyArray hl | question hl | propertyBreak hl
  | closeObject hl | name hl | colonBreak hl | colon hl => exact step_token hl nofun
  | @openArray _ stack _ hs hl =>
      have htype : stepToken limit s .openBracket l = stepType limit stack .openBracket l :=
        stepToken_type _ hs nofun nofun
      rw [step_token hl nofun, htype]
      refine opened_iff.mpr ⟨rfl, ?_⟩
      rw [← depth_typeStack hs]
      exact hf (opens_of_is hl)
  | @openObject _ stack _ hs hl =>
      have htype : stepToken limit s .openBrace l = stepType limit stack .openBrace l :=
        stepToken_type _ hs nofun nofun
      rw [step_token hl nofun, htype]
      refine opened_iff.mpr ⟨rfl, ?_⟩
      rw [← depth_typeStack hs]
      exact hf (opens_of_is hl)
  | @keyword _ stack _ token kind hs hl hk =>
      have hne : ∀ other, other.kind? = none → token ≠ other := by
        rintro other ho rfl
        rw [ho] at hk
        cases hk
      rw [step_token hl (hne _ rfl), stepToken_type token hs (hne _ rfl) (hne _ rfl)]
      unfold stepType
      split
      next => exact absurd hk nofun
      next => exact absurd hk nofun
      next => exact absurd hk nofun
      next => rw [hk]
  | @typedBreak stack _ _ _ hp hstack hl =>
      rw [step_type? hp hl nofun nofun]
      match stack, hstack with
      | [], _ => rfl
      | .array :: outer, _ => rfl
  | closeArray hp hl | closeTyped hp hl => rw [step_type? hp hl nofun nofun]; rfl
  | endProperty hp hl =>
      rcases hl with hl | hl <;> (rw [step_type? hp hl nofun nofun]; rfl)

/-- A bracket is only taken within the limit. -/
theorem fits_of_stepToken {s s' : State} {token : Token} {l : Lexeme} (hl : Is token l)
    (h : stepToken limit s token l = .ok s') : Fits limit s l := by
  intro ho
  obtain ⟨stack, hs⟩ := typeStack_of_opens (moves_of_stepToken hl h) ho
  rw [opens_of_is hl, decide_eq_true_eq] at ho
  rw [depth_typeStack hs]
  rcases ho with rfl | rfl
  · rw [stepToken_type .openBracket hs nofun nofun] at h
    exact (opened_iff.mp h).2
  · rw [stepToken_type .openBrace hs nofun nofun] at h
    exact (opened_iff.mp h).2

/-- The machine takes a blank, or it makes a move that fits. -/
theorem step_iff {s s' : State} {l : Lexeme} :
    step limit s l = .ok s' ↔ (Is .whitespace l ∧ s' = s) ∨ (Moves s l s' ∧ Fits limit s l) := by
  constructor
  · intro h
    match l, h with
    | .token token text span, h =>
        by_cases hw : token = .whitespace
        · subst hw
          exact Or.inl ⟨rfl, (Except.ok.inj h).symm⟩
        · have hl : Is token (.token token text span) := rfl
          rw [step_token hl hw] at h
          exact Or.inr ⟨moves_of_stepToken hl h, fits_of_stepToken hl h⟩
  · rintro (⟨hl, rfl⟩ | ⟨h, hf⟩)
    · exact step_whitespace hl
    · exact step_of_moves h hf

/-- The text may end after a type that nothing waits for. -/
theorem finish_eq_ok_iff {s : State} {t : Schema} :
    s.finish = .ok t ↔ s.stack = [] ∧ s.point.type? = some t := by
  obtain ⟨stack, point⟩ := s
  cases point with
  | declared t' | typed t' =>
      cases stack with
      | nil => simp [finish, Point.type?]
      | cons frame outer => cases frame <;> simp [finish]
  | typeDue | itemsDue | propertyDue _ | colonDue _ _ => simp [finish, Point.type?]

end State

/-- No move is made for a blank. -/
theorem not_whitespace_of_moves {s s' : State} {l : Lexeme}
    (h : Moves s l s') : ¬Is .whitespace l := by
  intro hw
  have hne : ∀ token, Is token l → token = .whitespace := fun token hl =>
    Option.some.inj (hl.symm.trans hw)
  cases h with
  | typeBreak hl | itemsBreak hl | openArray _ hl | openObject _ hl | emptyArray hl
  | question hl | typedBreak _ _ hl | closeArray _ hl | closeTyped _ hl | propertyBreak hl
  | closeObject hl | name hl | colonBreak hl | colon hl => exact nomatch hne _ hl
  | keyword _ hl hk =>
      rw [hne _ hl] at hk
      cases hk
  | endProperty _ hl =>
      rcases hl with hl | hl
      · exact nomatch hne _ hl
      · exact nomatch hne _ hl

end Parse

end Jstn
