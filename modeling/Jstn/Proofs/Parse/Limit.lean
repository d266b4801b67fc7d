import Jstn.Proofs.Parse.ViablePrefix

/-!
# What the limit on nesting does

The parser with a limit does what it does without one, up to the first bracket that opens
while as many are open as the limit allows (`FirstBeyond`).  If it comes that far, that
bracket is the error.

* A step within a limit is the step without it, unless it opens a bracket too many
  (`State.step_limit`).
* The depth of a state is the number of brackets that are open in the text before it
  (`State.depth_of_run`), whatever has been opened and closed in between.
* Lexemes start one after the other (`Scanner.pairwise_start`), so an error at the bracket
  or before it is told by where it points (`FailsBy`).
-/

namespace Jstn

/-! ## Where lexemes start -/

namespace Scanner

theorem offset_le_start {cs : List Char} {offset : Nat} :
    ∀ l ∈ lexemes ⟨cs, offset⟩, offset ≤ l.span.start := by
  induction cs using run_induction generalizing offset with
  | nil =>
      rw [lexemes_nil]
      exact nofun
  | cons c cs ih =>
      rw [lexemes_eq]
      refine List.forall_mem_cons.mpr ⟨Nat.le_of_eq (Lexeme.start_ofRun ..).symm, ?_⟩
      intro l hl
      exact Nat.le_trans (Nat.le_add_right ..) (ih l hl)

/-- Lexemes start one after the other. -/
theorem pairwise_start (cs : List Char) (offset : Nat) :
    (lexemes ⟨cs, offset⟩).Pairwise fun l m => l.span.start < m.span.start := by
  induction cs using run_induction generalizing offset with
  | nil =>
      rw [lexemes_nil]
      exact .nil
  | cons c cs ih =>
      rw [lexemes_eq]
      refine List.pairwise_cons.mpr ⟨fun l hl => ?_, ih _⟩
      have hwide : 0 < utf8Length (c :: cs.takeWhile (goesOn c)) :=
        Nat.add_pos_left (Char.utf8Size_pos c) _
      have hstart := offset_le_start l hl
      rw [Lexeme.start_ofRun]
      omega

end Scanner

namespace Parse

/-! ## Brackets too many -/

/-- A bracket opens after `pre`, where `n` are open. -/
def Beyond (n : Nat) (pre : List Lexeme) (l : Lexeme) : Prop :=
  opens l = true ∧ pre.countP opens = pre.countP closes + n

/-- The bracket is the first that opens where `n` are open. -/
structure FirstBeyond (n : Nat) (pre : List Lexeme) (l : Lexeme) : Prop where
  beyond : Beyond n pre l
  first : ∀ x m, x ++ [m] <+: pre → ¬Beyond n x m

/-- The error points at the lexeme or before it. -/
def FailsBy (result : Except ParseError Schema) (l : Lexeme) : Prop :=
  ∃ e span, result = .error e ∧ e.span? = some span ∧ span.start ≤ l.span.start

namespace State

variable {limit : Option Nat} {n : Nat} {s s' : State} {l : Lexeme} {ls : List Lexeme}
  {e : ParseError}

/-! ## Steps and runs within a limit -/

theorem stepType_of_error {stack : List Frame} {token : Token}
    (h : stepType none stack token l = .error e) : stepType limit stack token l = .error e := by
  cases token <;> first | exact h | cases h

/-- What is an error without a limit is the same error within one. -/
theorem step_of_error (h : step none s l = .error e) : step limit s l = .error e := by
  obtain ⟨stack, point⟩ := s
  match l, h with
  | .illegal char span, h => exact h
  | .token token text span, h =>
      by_cases hw : token = .whitespace
      · subst hw
        cases h
      · have hl : Is token (.token token text span) := rfl
        rw [step_token hl hw] at h ⊢
        cases point with
        | typeDue => exact stepType_of_error h
        | itemsDue =>
            simp only [stepToken] at h ⊢
            split at h
            · cases h
            · cases h
            · exact stepType_of_error h
        | declared _ | typed _ | propertyDue _ | colonDue _ _ => exact h

/-- A bracket that opens where the limit is reached. -/
theorem step_tooDeep (h : step none s l = .ok s') (ho : opens l = true) (hn : n ≤ s.depth) :
    step (some n) s l = .error (.tooDeep n l.span) := by
  obtain ⟨token, hl⟩ : ∃ token, Is token l := by
    cases l with
    | token token text span => exact ⟨token, rfl⟩
    | illegal char span => cases ho
  rcases step_iff.mp h with ⟨hw, -⟩ | ⟨hm, -⟩
  · rw [opens_of_is hw] at ho
    cases ho
  · obtain ⟨stack, hs⟩ := typeStack_of_opens hm ho
    rw [depth_typeStack hs] at hn
    rw [opens_of_is hl, decide_eq_true_eq] at ho
    rcases ho with rfl | rfl
    · rw [step_token hl nofun, stepToken_type .openBracket hs nofun nofun]
      exact if_neg (Nat.not_lt.mpr hn)
    · rw [step_token hl nofun, stepToken_type .openBrace hs nofun nofun]
      exact if_neg (Nat.not_lt.mpr hn)

/-- A step within a limit is the step without it, unless it opens a bracket too many. -/
theorem step_limit (n : Nat) (s : State) (l : Lexeme) :
    step (some n) s l =
      if opens l = true ∧ n ≤ s.depth then
        step none s l >>= fun _ => .error (.tooDeep n l.span)
      else step none s l := by
  cases hs : step none s l with
  | error e =>
      rw [step_of_error hs]
      split <;> rfl
  | ok s' =>
      split
      next h => exact step_tooDeep hs h.1 h.2
      next h =>
        refine step_limit_iff.mpr ⟨hs, fun ho m hm => ?_⟩
        cases hm
        exact Nat.not_le.mp fun hn => h ⟨ho, hn⟩

theorem run_append_bind (limit : Option Nat) (s : State) (x y : List Lexeme) :
    run limit s (x ++ y) = run limit s x >>= fun s' => run limit s' y := List.foldlM_append

theorem run_cons_bind (limit : Option Nat) (s : State) (l : Lexeme) (ls : List Lexeme) :
    run limit s (l :: ls) = step limit s l >>= fun s' => run limit s' ls := List.foldlM_cons

theorem run_single (limit : Option Nat) (s : State) (l : Lexeme) :
    run limit s [l] = step limit s l := bind_pure _

/-- The depth counts the open brackets. -/
theorem depth_of_run (h : run limit s ls = .ok s') :
    s'.depth + ls.countP closes = s.depth + ls.countP opens := by
  induction ls generalizing s with
  | nil =>
      cases h
      rfl
  | cons l ls ih =>
      obtain ⟨s₁, hs, hrun⟩ := run_cons_eq_ok.mp h
      have hstep := step_depth hs
      have hrest := ih hrun
      rw [List.countP_cons, List.countP_cons]
      omega

/-- Where no bracket is too many the limit makes no difference. -/
theorem run_limit (h : ∀ x m, x ++ [m] <+: ls → ¬Beyond n x m) :
    run (some n) start ls = run none start ls ∧
      ∀ s, run none start ls = .ok s → s.depth ≤ n := by
  induction ls using List.reverseRecOn with
  | nil =>
      refine ⟨rfl, fun s hs => ?_⟩
      cases hs
      exact Nat.zero_le n
  | append_singleton ls l ih =>
      obtain ⟨hsame, hdepth⟩ := ih fun x m hx => h x m (hx.trans (List.prefix_append ..))
      cases hrun : run none start ls with
      | error e =>
          rw [run_append_bind, run_append_bind, hsame, hrun]
          exact ⟨rfl, nofun⟩
      | ok s =>
          have hle := hdepth s hrun
          have hcount : s.depth + ls.countP closes = 0 + ls.countP opens := depth_of_run hrun
          have hroom : ¬(opens l = true ∧ n ≤ s.depth) := by
            rintro ⟨ho, hn⟩
            exact h ls l List.prefix_rfl ⟨ho, by omega⟩
          have hstep : step (some n) s l = step none s l := by rw [step_limit, if_neg hroom]
          rw [run_append [l] (hsame.trans hrun), run_append [l] hrun, run_single, run_single]
          exact ⟨hstep, fun s' hs' =>
            (fits_iff hle hs').mp (step_limit_iff.mp (hstep.trans hs')).2⟩

/-- The first bracket too many is the error, unless the text fails up to it. -/
theorem run_firstBeyond {pre : List Lexeme} (h : FirstBeyond n pre l) (post : List Lexeme) :
    run (some n) start (pre ++ l :: post) =
      run none start (pre ++ [l]) >>= fun _ => .error (.tooDeep n l.span) := by
  obtain ⟨hsame, -⟩ := run_limit h.first
  rw [run_append_bind, run_append_bind, hsame]
  cases hrun : run none start pre with
  | error e => rfl
  | ok s =>
      have hcount : s.depth + pre.countP closes = 0 + pre.countP opens := depth_of_run hrun
      have hbeyond := h.beyond.2
      have hfull : opens l = true ∧ n ≤ s.depth := ⟨h.beyond.1, by omega⟩
      have hstep := step_limit n s l
      rw [if_pos hfull] at hstep
      change run (some n) s (l :: post) = run none s [l] >>= _
      rw [run_cons_bind, run_cons_bind, hstep]
      cases step none s l <;> rfl

end State

/-! ## Texts within a limit -/

section

variable {n : Nat} {source : String} {pre post : List Lexeme} {l : Lexeme}

theorem ofLexemes_bind (limit : Option Nat) (ls : List Lexeme) :
    ofLexemes limit ls = State.start.run limit ls >>= State.finish := by
  rw [ofLexemes]
  cases State.start.run limit ls <;> rfl

/-- Without a limit the text fails at a lexeme or before it just if the run up to it does. -/
theorem failsBy_iff (hls : tokenize source = pre ++ l :: post) :
    FailsBy (parseWithin none source) l ↔ ∃ e, State.start.run none (pre ++ [l]) = .error e := by
  have hstarts : (tokenize source).Pairwise fun l m => l.span.start < m.span.start :=
    Scanner.pairwise_start source.toList 0
  rw [hls, List.pairwise_append, List.pairwise_cons] at hstarts
  obtain ⟨-, ⟨hpost, -⟩, hpre⟩ := hstarts
  have hparse : parseWithin none source =
      State.start.run none (pre ++ [l]) >>= fun s => s.run none post >>= State.finish := by
    rw [parseWithin, hls, ofLexemes_bind, List.append_cons pre l post, State.run_append_bind,
      bind_assoc]
  constructor
  · rintro ⟨e, span, he, hspan, hle⟩
    cases hrun : State.start.run none (pre ++ [l]) with
    | error e' => exact ⟨e', rfl⟩
    | ok s =>
        rw [hrun] at hparse
        have hafter : s.run none post >>= State.finish = .error e := hparse.symm.trans he
        cases hrest : s.run none post with
        | ok s' =>
            rw [hrest] at hafter
            obtain ⟨expected, rfl⟩ := State.finish_error hafter
            cases hspan
        | error e' =>
            rw [hrest] at hafter
            cases hafter
            obtain ⟨x, m, y, s', hx, -, hm⟩ := State.run_error hrest
            rw [(State.pointsAt_of_step hm).span_eq] at hspan
            cases hspan
            have hlt := hpost m (by simp [hx])
            omega
  · rintro ⟨e, he⟩
    obtain ⟨x, m, y, s, hx, -, hm⟩ := State.run_error he
    refine ⟨e, m.span, by rw [hparse, he]; rfl, (State.pointsAt_of_step hm).span_eq, ?_⟩
    have hmem : m ∈ pre ++ [l] := by simp [hx]
    rcases List.mem_append.mp hmem with hmem | hmem
    · exact Nat.le_of_lt (hpre m hmem l List.mem_cons_self)
    · exact Nat.le_of_eq (congrArg (fun k => k.span.start) (List.mem_singleton.mp hmem))

theorem parseWithin_of_not_beyond (h : ∀ x m, x ++ [m] <+: tokenize source → ¬Beyond n x m) :
    parseWithin (some n) source = parseWithin none source := by
  rw [parseWithin, parseWithin, ofLexemes_bind, ofLexemes_bind, (State.run_limit h).1]

theorem parseWithin_of_firstBeyond (hls : tokenize source = pre ++ l :: post)
    (h : FirstBeyond n pre l) :
    (FailsBy (parseWithin none source) l →
      parseWithin (some n) source = parseWithin none source) ∧
    (¬FailsBy (parseWithin none source) l →
      parseWithin (some n) source = .error (.tooDeep n l.span)) := by
  rw [failsBy_iff hls, parseWithin, parseWithin, hls, ofLexemes_bind, ofLexemes_bind,
    State.run_firstBeyond h post, List.append_cons pre l post,
    State.run_append_bind none _ (pre ++ [l]) post]
  cases State.start.run none (pre ++ [l]) with
  | error e => exact ⟨fun _ => rfl, fun h => absurd ⟨e, rfl⟩ h⟩
  | ok s =>
      refine ⟨?_, fun _ => rfl⟩
      rintro ⟨e, he⟩
      cases he

/-- Brackets that close in between make room for others. -/
theorem not_beyond_of_nestsWithin {ls : List Lexeme} (h : NestsWithin n ls) :
    ∀ x m, x ++ [m] <+: ls → ¬Beyond n x m := by
  rintro x m hx ⟨ho, hcount⟩
  have hle := h (x ++ [m]) hx
  simp only [List.countP_append, List.countP_singleton, ho, not_closes_of_opens ho, if_true,
    Bool.false_eq_true, if_false] at hle
  omega

end

/-! ## Brackets that are never closed -/

/-- The bracket that opens an array after `i` bytes. -/
def openingAt (i : Nat) : Lexeme := .token .openBracket "[" ⟨i, i + 1⟩

/-- A text of nothing but opening brackets. -/
def openings (k : Nat) : String := String.ofList (List.replicate k '[')

theorem tokenize_openings (k : Nat) : tokenize (openings k) = (List.range k).map openingAt := by
  have hlexemes : ∀ offset, Scanner.lexemes ⟨List.replicate k '[', offset⟩ =
      (List.range' offset k).map openingAt := by
    induction k with
    | zero => exact Scanner.lexemes_nil
    | succ k ih =>
        intro offset
        have hmunch : munch '[' ([] ++ List.replicate k '[') = (some .openBracket, []) :=
          munch_punctuation _ rfl
        have hcons := Scanner.lexemes_cons offset hmunch
        rw [List.nil_append] at hcons
        rw [List.replicate_succ, hcons, List.range'_succ, List.map_cons]
        exact congrArg (openingAt offset :: ·) (ih _)
  rw [tokenize, Scanner.ofSource, openings, String.toList_ofList, hlexemes, List.range_eq_range']

theorem run_openings {ls : List Lexeme} (h : ∀ l ∈ ls, Is .openBracket l) {s : State}
    {stack : List Frame} (hs : s.typeStack? = some stack) :
    ∃ s' stack', s.run none ls = .ok s' ∧ s'.typeStack? = some stack' := by
  induction ls generalizing s stack with
  | nil => exact ⟨s, stack, rfl, hs⟩
  | cons l ls ih =>
      obtain ⟨hl, h⟩ := List.forall_mem_cons.mp h
      have hdue : State.typeStack? ⟨stack, .itemsDue⟩ = some (.array :: stack) := rfl
      rw [State.run_move ls (.openArray hs hl)]
      exact ih h hdue

theorem parseWithin_openings (k : Nat) :
    parseWithin none (openings k) = .error (.unexpectedEnd .type) := by
  have hstart : State.start.typeStack? = some [] := rfl
  have hopening : ∀ l ∈ (List.range k).map openingAt, Is .openBracket l := by
    rintro l hl
    obtain ⟨i, -, rfl⟩ := List.mem_map.mp hl
    rfl
  obtain ⟨⟨stack, point⟩, stack', hrun, hs⟩ := run_openings hopening hstart
  rw [parseWithin, tokenize_openings, ofLexemes_bind, hrun]
  cases point with
  | typeDue | itemsDue => rfl
  | declared _ | typed _ | propertyDue _ | colonDue _ _ => cases hs

theorem countP_openings (k : Nat) :
    ((List.range k).map openingAt).countP opens = k ∧
      ((List.range k).map openingAt).countP closes = 0 := by
  have hopens : (opens ∘ openingAt) = fun _ => true := rfl
  have hcloses : (closes ∘ openingAt) = fun _ => false := rfl
  rw [List.countP_map, List.countP_map, hopens, hcloses, List.countP_true, List.countP_false,
    List.length_range]
  exact ⟨rfl, rfl⟩

/-- The bracket after `n` others is the first beyond `n`. -/
theorem firstBeyond_openings (n : Nat) :
    FirstBeyond n ((List.range n).map openingAt) (openingAt n) := by
  obtain ⟨hopens, hcloses⟩ := countP_openings n
  refine ⟨⟨rfl, by rw [hopens, hcloses, Nat.zero_add]⟩, ?_⟩
  rintro x m hx ⟨-, hcount⟩
  have hlength := hx.length_le
  have hle := List.countP_le_length (p := opens) (l := x)
  simp only [List.length_append, List.length_singleton, List.length_map, List.length_range]
    at hlength
  omega

theorem parseWithin_openings_of_le {n k : Nat} (h : k ≤ n) :
    parseWithin (some n) (openings k) = .error (.unexpectedEnd .type) := by
  rw [parseWithin_of_not_beyond, parseWithin_openings]
  rintro x m hx ⟨-, hcount⟩
  have hlength := hx.length_le
  have hle := List.countP_le_length (p := opens) (l := x)
  simp only [tokenize_openings, List.length_append, List.length_singleton, List.length_map,
    List.length_range] at hlength
  omega

theorem parseWithin_openings_succ (n : Nat) :
    parseWithin (some n) (openings (n + 1)) = .error (.tooDeep n ⟨n, n + 1⟩) := by
  have hls : tokenize (openings (n + 1)) = (List.range n).map openingAt ++ openingAt n :: [] := by
    rw [tokenize_openings, List.range_succ, List.map_append, List.map_singleton]
  refine (parseWithin_of_firstBeyond hls (firstBeyond_openings n)).2 ?_
  rintro ⟨e, span, he, hspan, -⟩
  rw [parseWithin_openings] at he
  cases he
  cases hspan

/-- Every limit refuses a text that a greater one does not. -/
theorem exists_parseWithin_ne {m n : Nat} (h : m < n) :
    parseWithin (some m) (openings (m + 1)) ≠ parseWithin (some n) (openings (m + 1)) := by
  rw [parseWithin_openings_succ, parseWithin_openings_of_le h]
  nofun

end Parse

open Parse

/-- The limit adds nothing but the error at the first bracket that opens while 128 are open,
and only if the text does not fail there or before without it.  So containers side by side
do not add up, and no other limit does the same. -/
theorem limit_adds_tooDeep_only (source : String) :
    ((∀ x m, x ++ [m] <+: tokenize source → ¬Beyond 128 x m) →
      parse source = parseWithin none source) ∧
    (∀ pre l post, tokenize source = pre ++ l :: post → FirstBeyond 128 pre l →
      (FailsBy (parseWithin none source) l → parse source = parseWithin none source) ∧
      (¬FailsBy (parseWithin none source) l →
        parse source = .error (.tooDeep 128 l.span))) ∧
    (NestsWithin 128 (tokenize source) → parse source = parseWithin none source) ∧
    ∀ n, n ≠ 128 → ∃ other, parse other ≠ parseWithin (some n) other := by
  refine ⟨parseWithin_of_not_beyond, fun pre l post hls h => parseWithin_of_firstBeyond hls h,
    fun h => parseWithin_of_not_beyond (not_beyond_of_nestsWithin h), fun n hn => ?_⟩
  rcases Nat.lt_or_gt_of_ne hn with hlt | hgt
  · exact ⟨_, (exists_parseWithin_ne hlt).symm⟩
  · exact ⟨_, exists_parseWithin_ne hgt⟩

/-- The 129th of brackets that are never closed is one too many. -/
theorem limit_adds_tooDeep_only_openings :
    FirstBeyond 128 ((List.range 128).map openingAt) (openingAt 128) ∧
      parse (openings 129) = .error (.tooDeep 128 ⟨128, 129⟩) := by
  have hfirst := firstBeyond_openings 128
  have hls : tokenize (openings 129) = (List.range 128).map openingAt ++ openingAt 128 :: [] := by
    rw [tokenize_openings, List.range_succ, List.map_append, List.map_singleton]
  refine ⟨hfirst, ((limit_adds_tooDeep_only (openings 129)).2.1 _ _ _ hls hfirst).2 ?_⟩
  rintro ⟨e, span, he, hspan, -⟩
  rw [parseWithin_openings] at he
  cases he
  cases hspan

end Jstn
