import Jstn.Proofs.Lexeme.Boundaries
import Jstn.Proofs.Print

/-!
# Errors are found as early as can be

An error points at the first lexeme with which no schema text goes on.

* Whatever the parser has taken can be completed (`exists_completion`).  The type that is
  due may be `any`, and what is open may be closed, so a completion needs no bracket more
  than are open already.
* An error is about the lexeme that shows it and about nothing after it
  (`pointsAt_of_step`, `run_error`).
* The lexemes before it are those of the text before it (`Scanner.exists_cut`), and a
  completion does not touch them (`Scanner.lexemes_append`).  Words are the only lexemes
  that a completion could go on with, and no type is due after one (`not_isWord_of_run`).
-/

namespace Jstn

/-! ## What errors say about lexemes -/

namespace ParseError

/-- How an error describes what it found. -/
def found? : ParseError → Option String
  | unexpectedToken _ found | unendedProperty _ found | trailingInput found => some found.describe
  | illegalCharacter .. | unexpectedEnd _ | tooDeep .. => none

/-- The text that an error shows. -/
def text? : ParseError → Option String
  | illegalCharacter char _ => some char.toString
  | unexpectedToken .. | unexpectedEnd _ | unendedProperty .. | trailingInput _ | tooDeep .. => none

/-- The error points at the lexeme, and what it shows is what the lexeme is. -/
structure PointsAt (e : ParseError) (l : Lexeme) : Prop where
  span_eq : e.span? = some l.span
  found_eq : ∀ found, e.found? = some found → found = l.describe
  text_eq : ∀ text, e.text? = some text → text = l.text

theorem PointsAt.found {e : ParseError} {l : Lexeme} (hspan : e.span? = some l.span)
    (hfound : e.found? = some l.describe) (htext : e.text? = none) : e.PointsAt l := by
  refine ⟨hspan, fun found h => ?_, fun text h => ?_⟩
  · rw [hfound] at h
    exact (Option.some.inj h).symm
  · rw [htext] at h
    cases h

end ParseError

namespace Parse

open State

namespace State

variable {limit : Option Nat}

theorem pointsAt_of_stepType {stack : List Frame} {token : Token} {l : Lexeme} {e : ParseError}
    (h : stepType limit stack token l = .error e) : e.PointsAt l := by
  have hopened : ∀ inside, stepType.opened limit stack l inside = .error e → e.PointsAt l := by
    intro inside h
    unfold stepType.opened at h
    split at h
    · split at h
      · cases h
      · cases h
        exact ⟨rfl, nofun, nofun⟩
    · cases h
  unfold stepType at h
  split at h
  · cases h
  · exact hopened _ h
  · exact hopened _ h
  · split at h
    · cases h
    · cases h
      exact .found rfl rfl rfl

theorem pointsAt_of_stepTyped {stack : List Frame} {t : Schema} {token : Token} {l : Lexeme}
    {e : ParseError} (h : stepTyped stack t token l = .error e) : e.PointsAt l := by
  unfold stepTyped at h
  split at h <;> split at h <;> cases h <;> exact .found rfl rfl rfl

/-- A step fails with an error about its lexeme. -/
theorem pointsAt_of_step {s : State} {l : Lexeme} {e : ParseError}
    (h : step limit s l = .error e) : e.PointsAt l := by
  obtain ⟨stack, point⟩ := s
  unfold step at h
  split at h
  next =>
    cases h
    exact ⟨rfl, nofun, fun text h => (Option.some.inj h).symm⟩
  next => cases h
  next =>
    cases point with
    | typeDue => exact pointsAt_of_stepType h
    | typed t => exact pointsAt_of_stepTyped h
    | itemsDue =>
        simp only [stepToken] at h
        split at h
        · cases h
        · cases h
        · exact pointsAt_of_stepType h
    | declared t =>
        simp only [stepToken] at h
        split at h
        · cases h
        · exact pointsAt_of_stepTyped h
    | propertyDue _ | colonDue _ _ =>
        simp only [stepToken] at h
        split at h
        all_goals
          cases h
          try exact .found rfl rfl rfl

/-- A run fails at one lexeme, after a run over those before it. -/
theorem run_error {s : State} {ls : List Lexeme} {e : ParseError}
    (h : run limit s ls = .error e) :
    ∃ pre l post s', ls = pre ++ l :: post ∧ run limit s pre = .ok s' ∧
      step limit s' l = .error e := by
  induction ls generalizing s with
  | nil => cases h
  | cons l ls ih =>
      cases hs : step limit s l with
      | error e' =>
          rw [run, List.foldlM_cons, hs] at h
          cases h
          exact ⟨[], l, ls, s, rfl, rfl, hs⟩
      | ok s₁ =>
          rw [run_cons ls hs] at h
          obtain ⟨pre, m, post, s', rfl, hpre, hm⟩ := ih h
          exact ⟨l :: pre, m, post, s', rfl, by rw [run_cons pre hs, hpre], hm⟩

/-- What follows the lexeme that shows an error does not matter. -/
theorem run_append_error {s s' : State} {pre : List Lexeme} {l : Lexeme} {e : ParseError}
    (hpre : run limit s pre = .ok s') (hl : step limit s' l = .error e) (post : List Lexeme) :
    run limit s (pre ++ l :: post) = .error e := by
  rw [run_append _ hpre, run, List.foldlM_cons, hl]
  rfl

theorem finish_error {s : State} {e : ParseError} (h : s.finish = .error e) :
    ∃ expected, e = .unexpectedEnd expected := by
  obtain ⟨stack, point⟩ := s
  cases point with
  | typeDue | itemsDue | propertyDue _ | colonDue _ _ =>
      cases h
      exact ⟨_, rfl⟩
  | declared t | typed t =>
      cases stack with
      | nil => cases h
      | cons frame outer =>
          cases frame <;>
            (cases h
             exact ⟨_, rfl⟩)

end State

/-! ## Completions -/

/-- The bracket that closes a frame. -/
def Frame.closing : Frame → Char
  | array => ']'
  | object .. => '}'

/-- The text that closes frames. -/
def closing (stack : List Frame) : List Char := stack.map Frame.closing

/-- The text that brings a point to a type that has been read. -/
def Point.completion : Point → List Char
  | typeDue => ['a', 'n', 'y']
  | itemsDue => [']']
  | declared _ | typed _ => []
  | propertyDue _ => ['}']
  | colonDue .. => [':', 'a', 'n', 'y', '}']

/-- A text that completes what has been read. -/
def State.completion (s : State) : List Char := s.point.completion ++ closing s.stack

theorem apart_closing {p : Char → Bool} (harray : p ']' = false) (hobject : p '}' = false)
    (stack : List Frame) : Apart p (closing stack) := by
  cases stack with
  | nil => exact apart_nil p
  | cons frame outer => cases frame <;> exact apart_cons _ ‹_›

theorem exists_goes_closing (stack : List Frame) {point : Point} {t : Schema}
    (hp : point.type? = some t) :
    ∃ (point' : Point) (t' : Schema), point'.type? = some t' ∧
      Goes ⟨stack, point⟩ (closing stack) [] ⟨[], point'⟩ := by
  induction stack generalizing point t with
  | nil => exact ⟨point, t, hp, goes_nil _ _⟩
  | cons frame outer ih =>
      cases frame with
      | array =>
          have hclosed : (Point.declared (.array t)).type? = some (.array t) := rfl
          obtain ⟨point', t', hp', hgoes⟩ := ih hclosed
          have hmark : Goes ⟨.array :: outer, point⟩ [']'] (closing outer ++ [])
              ⟨outer, .declared (.array t)⟩ :=
            goes_mark_flat rfl rfl (fun l hl => .closeArray hp hl)
          exact ⟨point', t', hp', hmark.trans hgoes⟩
      | object done name =>
          have hclosed : (Point.declared
              { kind := .object, properties := NameMap.insert name t done }).type? = some _ := rfl
          obtain ⟨point', t', hp', hgoes⟩ := ih hclosed
          have hmark : Goes ⟨.object done name :: outer, point⟩ ['}'] (closing outer ++ [])
              ⟨outer, .declared { kind := .object, properties := NameMap.insert name t done }⟩ :=
            goes_mark_flat rfl rfl (fun l hl => .closeTyped hp hl)
          exact ⟨point', t', hp', hmark.trans hgoes⟩

/-- Every state reads its completion to the end of a schema. -/
theorem exists_goes_completion (s : State) :
    ∃ (point : Point) (t : Schema), point.type? = some t ∧
      Goes s s.completion [] ⟨[], point⟩ := by
  obtain ⟨stack, point⟩ := s
  have hword : Apart isWordPart (closing stack ++ []) := by
    rw [List.append_nil]
    exact apart_closing rfl rfl stack
  have hkeyword : Kind.any.keyword? = some "any" := rfl
  have hread : ∃ (point' : Point) (t : Schema), point'.type? = some t ∧
      Goes ⟨stack, point⟩ point.completion (closing stack ++ []) ⟨stack, point'⟩ := by
    cases point with
    | declared t | typed t => exact ⟨_, t, rfl, goes_nil _ _⟩
    | typeDue => exact ⟨_, .any, rfl, goes_keyword rfl hkeyword hword⟩
    | itemsDue =>
        exact ⟨_, .emptyArray, rfl,
          goes_mark_flat rfl rfl (fun l hl => .emptyArray hl)⟩
    | propertyDue done =>
        exact ⟨_, { kind := .object, properties := done }, rfl,
          goes_mark_flat rfl rfl (fun l hl => .closeObject hl)⟩
    | colonDue done name =>
        refine ⟨.declared { kind := .object, properties := NameMap.insert name .any done },
          _, rfl, ?_⟩
        have hcolon : ∀ rest, Goes ⟨stack, .colonDue done name⟩ [':'] rest
            ⟨.object done name :: stack, .typeDue⟩ := by
          intro rest
          exact goes_mark_flat rfl rfl (fun l hl => .colon hl)
        have hany : Goes ⟨.object done name :: stack, .typeDue⟩ ['a', 'n', 'y']
            (['}'] ++ (closing stack ++ [])) ⟨.object done name :: stack, .declared .any⟩ :=
          goes_keyword rfl hkeyword (apart_cons _ rfl)
        exact (hcolon _).trans (hany.trans
          (goes_mark_flat rfl rfl (fun l hl => .closeTyped rfl hl)))
  obtain ⟨point', t, hp, hread⟩ := hread
  obtain ⟨point'', t', hp', hclose⟩ := exists_goes_closing stack hp
  exact ⟨point'', t', hp', hread.trans hclose⟩

/-- No type is due after a word. -/
theorem not_isWord_of_run {limit : Option Nat} {s : State} {stack : List Frame}
    {ls : List Lexeme} {l : Lexeme} {token : Token}
    (h : run limit s (ls ++ [l]) = .ok ⟨stack, .typeDue⟩) (hl : Is token l) :
    token.isWord = false := by
  obtain ⟨s₁, -, hlast⟩ : ∃ s₁, run limit s ls = .ok s₁ ∧
      run limit s₁ [l] = .ok ⟨stack, .typeDue⟩ := by
    cases hrun : run limit s ls with
    | ok s₁ => exact ⟨s₁, rfl, by rw [← h, run_append _ hrun]⟩
    | error e =>
        rw [run, List.foldlM_append, show List.foldlM (step limit) s ls = _ from hrun] at h
        cases h
  obtain ⟨s₂, hs, hend⟩ := run_cons_eq_ok.mp hlast
  cases hend
  have hne : ∀ other, Is other l → other.isWord = false → token.isWord = false := by
    intro other hother hword
    rw [show token = other from Option.some.inj (hl.symm.trans hother), hword]
  rcases step_iff.mp hs with ⟨hw, -⟩ | ⟨hm, -⟩
  · exact hne _ hw rfl
  · cases hm with
    | typeBreak hbreak => exact hne _ hbreak rfl
    | colon hcolon => exact hne _ hcolon rfl

/-- No lexeme goes on with a mark that closes something or follows a name. -/
theorem goesOn_mark (l : Lexeme) {c : Char} (h : c ∈ [']', '}', ':']) :
    l.goesOn c = false := by
  obtain ⟨hblank, hbreak, hword⟩ :
      isBlank c = false ∧ isBreak c = false ∧ isWordPart c = false := by
    simp only [List.mem_cons, List.not_mem_nil, or_false] at h
    rcases h with rfl | rfl | rfl <;> decide
  exact Lexeme.goesOn_eq_false hblank hbreak fun _ _ _ => hword

/-- The last lexeme that has been read does not go on with a completion. -/
theorem apart_completion {limit : Option Nat} {s : State} {ls : List Lexeme} {l : Lexeme}
    (h : run limit start (ls ++ [l]) = .ok s) : Apart l.goesOn s.completion := by
  obtain ⟨stack, point⟩ := s
  cases point with
  | declared t | typed t =>
      exact apart_closing (goesOn_mark l (by simp)) (goesOn_mark l (by simp)) stack
  | itemsDue | propertyDue _ | colonDue _ _ => exact apart_cons _ (goesOn_mark l (by simp))
  | typeDue =>
      refine apart_cons _ (Lexeme.goesOn_eq_false rfl rfl fun token hl hword => ?_)
      rw [not_isWord_of_run h hl] at hword
      cases hword

/-- What the parser has taken can be completed. -/
theorem exists_completion {cs : List Char} {s : State}
    (h : run (some 128) start (Scanner.lexemes ⟨cs, 0⟩) = .ok s) :
    ∃ x t, parse (String.ofList (cs ++ x)) = .ok t := by
  obtain ⟨point, t, hp, hgoes⟩ := exists_goes_completion s
  obtain ⟨offset, hrun⟩ := hgoes (utf8Length cs)
  rw [List.append_nil, Scanner.lexemes_nil, run_nil] at hrun
  have hlast : ∀ l ∈ (Scanner.lexemes ⟨cs, 0⟩).getLast?, Apart l.goesOn s.completion := by
    intro l hl
    obtain ⟨ls, hls⟩ := List.getLast?_eq_some_iff.mp hl
    rw [hls] at h
    exact apart_completion h
  refine ⟨s.completion, t, ?_⟩
  have htokenize : tokenize (String.ofList (cs ++ s.completion)) =
      Scanner.lexemes ⟨cs, 0⟩ ++ Scanner.lexemes ⟨s.completion, utf8Length cs⟩ := by
    rw [tokenize, Scanner.ofSource, String.toList_ofList, Scanner.lexemes_append hlast,
      Nat.zero_add]
  have hfinish : State.finish ⟨[], point⟩ = .ok t := finish_eq_ok_iff.mpr ⟨rfl, hp⟩
  rw [parse, parseWithin, htokenize, ofLexemes, maxDepth, run_append _ h, hrun]
  exact hfinish

end Parse

/-- The error of a text is about its first lexeme with which no schema text goes on.  It
points at this lexeme, the text before it can be completed, and every text that begins with
the same lexemes up to it has the same error.  If the error is that the text ends too
early, the text itself can be completed. -/
theorem parse_error_leftmost {source : String} {e : ParseError} (h : parse source = .error e) :
    ((∀ expected, e ≠ .unexpectedEnd expected) →
      ∃ pre l post before after, tokenize source = pre ++ l :: post ∧ e.PointsAt l ∧
        source = before ++ after ∧ before.utf8ByteSize = l.span.start ∧
        (∃ x t, parse (before ++ x) = .ok t) ∧
        ∀ other post', tokenize other = pre ++ l :: post' → parse other = .error e) ∧
    ((∃ expected, e = .unexpectedEnd expected) → ∃ x t, parse (source ++ x) = .ok t) := by
  have htokenize : tokenize source = Scanner.lexemes ⟨source.toList, 0⟩ := rfl
  rw [parse, parseWithin, Parse.ofLexemes] at h
  split at h
  next s hrun =>
    obtain ⟨expected, rfl⟩ := Parse.State.finish_error h
    refine ⟨fun hne => absurd rfl (hne expected), fun _ => ?_⟩
    obtain ⟨x, t, hparse⟩ := Parse.exists_completion hrun
    rw [String.ofList_append, String.ofList_toList] at hparse
    exact ⟨String.ofList x, t, hparse⟩
  next e' hrun =>
    cases h
    obtain ⟨pre, l, post, s, hls, hpre, hl⟩ := Parse.State.run_error hrun
    have hpoints := Parse.State.pointsAt_of_step hl
    refine ⟨fun _ => ?_, ?_⟩
    · obtain ⟨before, after, hsource, hbefore, hstart⟩ := Scanner.exists_cut (htokenize ▸ hls)
      rw [← hbefore] at hpre
      obtain ⟨x, t, hparse⟩ := Parse.exists_completion hpre
      refine ⟨pre, l, post, String.ofList before, String.ofList after, hls, hpoints, ?_, ?_,
        ⟨String.ofList x, t, ?_⟩, ?_⟩
      · rw [← String.ofList_append, ← hsource, String.ofList_toList]
      · rw [utf8ByteSize_ofList, hstart, Nat.zero_add]
      · rw [← String.ofList_append, hparse]
      · intro other post' hother
        rw [hbefore] at hpre
        rw [parse, parseWithin, hother, Parse.ofLexemes,
          Parse.State.run_append_error hpre hl post']
    · rintro ⟨expected, rfl⟩
      cases hpoints.span_eq

/-- A property without an end, after an optional array. -/
theorem parse_error_leftmost_unended :
    parse "\x7ba: [any]? b" = .error (.unendedProperty "a" (.token .identifier "b" ⟨11, 12⟩)) ∧
      ∃ pre l post before after, tokenize "\x7ba: [any]? b" = pre ++ l :: post ∧
        ParseError.PointsAt (.unendedProperty "a" (.token .identifier "b" ⟨11, 12⟩)) l ∧
        "\x7ba: [any]? b" = before ++ after ∧ before.utf8ByteSize = l.span.start ∧
        (∃ x t, parse (before ++ x) = .ok t) ∧
        ∀ other post', tokenize other = pre ++ l :: post' →
          parse other = .error (.unendedProperty "a" (.token .identifier "b" ⟨11, 12⟩)) := by
  have h : parse "\x7ba: [any]? b"
      = .error (.unendedProperty "a" (.token .identifier "b" ⟨11, 12⟩)) := by decide +kernel
  refine ⟨h, (parse_error_leftmost h).1 fun expected he => ?_⟩
  cases he

end Jstn
