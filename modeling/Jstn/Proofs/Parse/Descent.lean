import Jstn.Proofs.Parse.Limit
import Jstn.Proofs.Parse.Lookahead

/-!
# The readers and the machine

Readers that call each other take schema text as the machine does, which has no calls and
nothing to put back.  They give the same answer for every text (`read_eq`).

The machine's answer about the rest of a text (`answer`) stays the same while it takes
lexemes.  So a reader is compared with it by the answers before and after (`Follows`), whatever
the reader has put back in between.  A lexeme that has been put back is taken by the machine
from another state, if the two states take it alike.

Readers of arrays and objects are called with one round less only after a bracket has been
taken, and those of more properties only after a name.  That is why they end, with any number
of rounds that is greater than that of the lexemes left (`containers`), and with them all
others (`readers_progress`).
-/

namespace Jstn

namespace Parse

namespace Descent

open State

variable {α : Type} {p p₁ p' : Place} {x : Reads α} {post : α → Place → Prop}

/-! ## What the machine answers -/

/-- What the machine answers about the rest of a text. -/
def answer (s : State) (ls : List Lexeme) : Except ParseError Schema :=
  run (some maxDepth) s ls >>= finish

variable {s s' : State} {l : Lexeme} {ls : List Lexeme} {e : ParseError} {breaksCount : Bool}

theorem answer_of_step (h : step (some maxDepth) s l = .ok s') (ls : List Lexeme) :
    answer s (l :: ls) = answer s' ls := by
  rw [answer, run_cons_bind, h]
  rfl

theorem answer_of_error (h : step (some maxDepth) s l = .error e) (ls : List Lexeme) :
    answer s (l :: ls) = .error e := by
  rw [answer, run_cons_bind, h]
  rfl

/-- Two states that take a lexeme alike are alike before it. -/
theorem answer_congr {found : Found}
    (hstep : ∀ l, found = some l → step (some maxDepth) s l = step (some maxDepth) s' l)
    (hfinish : s.finish = s'.finish) (hls : found = none → ls = []) :
    answer s (found.toList ++ ls) = answer s' (found.toList ++ ls) := by
  cases found with
  | none =>
      rw [hls rfl]
      exact hfinish
  | some l =>
      change answer s (l :: ls) = answer s' (l :: ls)
      rw [answer, answer, run_cons_bind, run_cons_bind, hstep l rfl]

/-- What readers skip in this state, the machine does not look at either. -/
def Skips (breaksCount : Bool) (s : State) : Prop :=
  ∀ l, Skipped breaksCount l → step (some maxDepth) s l = .ok s

theorem skips_of_newline
    (h : breaksCount = false → ∀ l, Is .newline l → step (some maxDepth) s l = .ok s) :
    Skips breaksCount s := by
  rintro l ⟨token, hl, htrivia⟩
  cases token with
  | whitespace => exact step_whitespace hl
  | newline =>
      cases breaksCount with
      | false => exact h rfl l hl
      | true => cases htrivia
  | string | number | boolean | null | any | openBrace | closeBrace | openBracket
  | closeBracket | colon | semicolon | question | identifier => cases htrivia

theorem skips_blanks (s : State) : Skips true s := skips_of_newline nofun

theorem skips_breaks (h : ∀ l, Is .newline l → step (some maxDepth) s l = .ok s) :
    Skips false s := skips_of_newline fun _ => h

theorem answer_skipped (hs : Skips breaksCount s) {skipped : List Lexeme}
    (h : ∀ l ∈ skipped, Skipped breaksCount l) (ls : List Lexeme) :
    answer s (skipped ++ ls) = answer s ls := by
  induction skipped with
  | nil => rfl
  | cons l skipped ih =>
      obtain ⟨hl, hskipped⟩ := List.forall_mem_cons.mp h
      rw [List.cons_append, answer_of_step (hs l hl), ih hskipped]

/-! ## Readers and the machine -/

/-- The place is sound and inside `d` brackets, which are within the limit. -/
structure Place.Level (p : Place) (d : Nat) : Prop where
  sound : p.Sound
  depth_eq : p.depth = d
  le : d ≤ maxDepth

/-- From `p` to `p'` at least `n` lexemes have been taken, and the level has changed from `d` to
`d'`.  If `r` is the machine's answer at `p`, then `r'` is its answer at `p'`. -/
structure Reached (n : Nat) (p : Place) (d : Nat) (r : Except ParseError Schema) (p' : Place)
    (d' : Nat) (r' : Except ParseError Schema) : Prop where
  suffix : p'.unread <:+ p.unread
  length_add_le : p'.unread.length + n ≤ p.unread.length
  depth_add_eq : p'.depth + d = p.depth + d'
  level : p.Level d → p'.Level d'
  answer_eq : p.Level d → r' = r

variable {d d₁ d' m n k : Nat} {r r₁ r' : Except ParseError Schema}

theorem Reached.trans (h : Reached m p d r p₁ d₁ r₁) (h' : Reached n p₁ d₁ r₁ p' d' r')
    (hk : k ≤ m + n) : Reached k p d r p' d' r' where
  suffix := h'.suffix.trans h.suffix
  length_add_le := by
    have hle := h.length_add_le
    have hle' := h'.length_add_le
    omega
  depth_add_eq := by
    have heq := h.depth_add_eq
    have heq' := h'.depth_add_eq
    omega
  level hp := h'.level (h.level hp)
  answer_eq hp := (h'.answer_eq (h.level hp)).trans (h.answer_eq hp)

theorem Reached.weaken (h : Reached n p d r p' d' r') (hm : m ≤ n) : Reached m p d r p' d' r' :=
  { h with length_add_le := Nat.le_trans (Nat.add_le_add_left hm _) h.length_add_le }

/-- The reader does at `p` what the machine does.  If `r` is the machine's answer at `p`, then
the reader takes at least `n` lexemes and `next` is the machine's answer after that, or it
refuses the text and `r` is the error. -/
def Follows (n : Nat) (x : Reads α) (p : Place) (d : Nat) (r : Except ParseError Schema)
    (next : α → Place → Except ParseError Schema) : Prop :=
  Ends x p (fun a p' => Reached n p d r p' d (next a p')) fun e => p.Level d → .error e = r

variable {next : α → Place → Except ParseError Schema}

/-- A reader goes on where the machine has come to. -/
theorem Reached.follow (h : Reached m p d r p₁ d₁ r₁) (hx : Follows n x p₁ d₁ r₁ next)
    (hk : k ≤ m + n) :
    Ends x p₁ (fun a p' => Reached k p d r p' d₁ (next a p')) fun e => p.Level d → .error e = r :=
  hx.imp (fun _ _ h' => h.trans h' hk) fun _ he hp => (he (h.level hp)).trans (h.answer_eq hp)

/-! ## What is done with a lexeme that has been found -/

namespace Finds

variable {found : Found}

theorem answer_eq (h : Finds breaksCount p found p₁) (hs : Skips breaksCount s) :
    answer s p.unread = answer s (found.toList ++ p₁.unread) := by
  obtain ⟨skipped, hskipped, hunread⟩ := h.exists_skipped
  rw [hunread, answer_skipped hs hskipped]

/-- A lexeme is taken if the machine takes it. -/
theorem taken (h : Finds breaksCount p (some l) p₁) (hs : Skips breaksCount s)
    (hstep : step (some maxDepth) s l = .ok s') (d : Nat) :
    Reached 1 p d (answer s p.unread) p₁ d (answer s' p₁.unread) where
  suffix := (List.suffix_cons l p₁.unread).trans h.suffix
  length_add_le := h.suffix.length_le
  depth_add_eq := congrArg (· + d) h.depth_eq
  level hp := ⟨Place.sound_of_slot h.slot_eq, h.depth_eq.trans hp.depth_eq, hp.le⟩
  answer_eq _ := by
    rw [h.answer_eq hs]
    exact (answer_of_step hstep p₁.unread).symm

/-- What is put back is still to be taken, maybe from another state. -/
theorem kept (h : Finds breaksCount p found p₁) (hs : Skips breaksCount s)
    (hsame : ∀ ls, (found = none → ls = []) →
      answer s (found.toList ++ ls) = answer s' (found.toList ++ ls)) (d : Nat)
    (refused : ParseError → Prop) :
    Ends (unscan found) p₁
      (fun _ p' => Reached 0 p d (answer s p.unread) p' d (answer s' p'.unread)) refused := by
  refine (ends_unscan found h.slot_eq refused).imp (fun _ p' hp' => ?_) fun _ => id
  have hunread : p'.unread = found.toList ++ p₁.unread := by
    rw [hp', Place.unread, Place.unread, h.slot_eq]
    rfl
  have hdepth : p'.depth = p.depth := by
    rw [hp']
    exact h.depth_eq
  refine ⟨hunread ▸ h.suffix, hunread ▸ h.suffix.length_le, congrArg (· + d) hdepth,
    fun hp => ⟨fun hslot => ?_, hdepth.trans hp.depth_eq, hp.le⟩, fun hp => ?_⟩
  · rw [hp'] at hslot ⊢
    have hend := h.atEnd hp.sound (Option.some.inj hslot)
    rw [Place.unread, h.slot_eq] at hend
    exact hend
  · rw [h.answer_eq hs, hunread]
    exact (hsame p₁.unread (h.atEnd hp.sound)).symm

/-- A lexeme is refused if the machine refuses it. -/
theorem refuse (h : Finds breaksCount p (some l) p₁) (hs : Skips breaksCount s)
    (hstep : step (some maxDepth) s l = .error e) :
    Ends (refuse e : Reads α) p₁ post fun e => p.Level d → .error e = answer s p.unread := by
  refine ends_refuse fun _ => ?_
  rw [h.answer_eq hs]
  exact (answer_of_error hstep p₁.unread).symm

/-- The end of the text is refused if the machine refuses it. -/
theorem refuse_end (h : Finds breaksCount p none p₁) (hs : Skips breaksCount s)
    (hfinish : s.finish = .error e) :
    Ends (Descent.refuse e : Reads α) p₁ post
      fun e => p.Level d → .error e = answer s p.unread := by
  refine ends_refuse fun hp => ?_
  rw [h.answer_eq hs, h.atEnd hp.sound rfl]
  exact hfinish.symm

end Finds

/-! ## Brackets -/

theorem skips_typeDue (stack : List Frame) : Skips false ⟨stack, .typeDue⟩ :=
  skips_breaks fun _ hl => step_token hl nofun

theorem run_enter (span : Span) (p : Place) :
    (enter span p).run =
      if p.depth = maxDepth then some (.error (.refused (.tooDeep maxDepth span)))
      else some (.ok ((), { p with depth := p.depth + 1 })) := by
  change ExceptT.run ((if p.depth = maxDepth then _ else _ : Reads Unit) p) = _
  split <;> rfl

/-- Readers go inside a bracket if the machine has room for it. -/
theorem ends_enter {stack : List Frame} {text : String} {span : Span} {token : Token}
    {inside : State} (h : Finds false p (some (.token token text span)) p₁)
    (hstep : step (some maxDepth) ⟨stack, .typeDue⟩ (.token token text span) =
      if stack.length < maxDepth then .ok inside else .error (.tooDeep maxDepth span)) :
    Ends (enter span) p₁
      (fun _ p' => Reached 1 p stack.length (answer ⟨stack, .typeDue⟩ p.unread) p'
        (stack.length + 1) (answer inside p'.unread))
      fun e => p.Level stack.length → .error e = answer ⟨stack, .typeDue⟩ p.unread := by
  have hs := skips_typeDue stack
  have hdepth : p.Level stack.length → p₁.depth = stack.length := fun hp =>
    h.depth_eq.trans hp.depth_eq
  by_cases hfull : p₁.depth = maxDepth
  · refine .refused ((run_enter span p₁).trans (if_pos hfull)) fun hp => ?_
    rw [← hdepth hp, if_neg (Nat.not_lt.mpr (Nat.le_of_eq hfull.symm))] at hstep
    rw [h.answer_eq hs]
    exact (answer_of_error hstep p₁.unread).symm
  · have hlt : p.Level stack.length → stack.length < maxDepth := fun hp =>
      Nat.lt_of_le_of_ne hp.le (hdepth hp ▸ hfull)
    refine .done ((run_enter span p₁).trans (if_neg hfull))
      ⟨(List.suffix_cons _ p₁.unread).trans h.suffix, h.suffix.length_le, ?_,
        fun hp => ⟨Place.sound_of_slot h.slot_eq, congrArg (· + 1) (hdepth hp), hlt hp⟩,
        fun hp => ?_⟩
    · rw [← h.depth_eq]
      exact Nat.add_right_comm ..
    · rw [h.answer_eq hs]
      exact (answer_of_step (hstep.trans (if_pos (hlt hp))) p₁.unread).symm

theorem ends_leave (h : Reached n p d r p₁ (d + 1) r') (refused : ParseError → Prop) :
    Ends leave p₁ (fun _ p' => Reached n p d r p' d r' ∧ p'.unread = p₁.unread) refused := by
  have hdepth : p₁.depth - 1 = p.depth := by
    have heq := h.depth_add_eq
    omega
  refine .done rfl ⟨⟨h.suffix, h.length_add_le, congrArg (· + d) hdepth,
    fun hp => ⟨(h.level hp).sound, hdepth.trans hp.depth_eq, hp.le⟩, h.answer_eq⟩, rfl⟩

/-- A bracket and what is inside it. -/
theorem follows_inside {stack : List Frame} {text : String} {span : Span} {token : Token}
    {y : Reads Schema} {inside : State} (h : Finds false p (some (.token token text span)) p₁)
    (hstep : step (some maxDepth) ⟨stack, .typeDue⟩ (.token token text span) =
      if stack.length < maxDepth then .ok inside else .error (.tooDeep maxDepth span))
    (hy : ∀ p₂ : Place, p₂.unread.length < p.unread.length →
      Follows 1 y p₂ (stack.length + 1) (answer inside p₂.unread)
        fun t p' => answer ⟨stack, .declared t⟩ p'.unread) :
    Ends (do enter span; let t ← y; leave; return t) p₁
      (fun t p' => Reached 1 p stack.length (answer ⟨stack, .typeDue⟩ p.unread) p' stack.length
        (answer ⟨stack, .declared t⟩ p'.unread))
      fun e => p.Level stack.length → .error e = answer ⟨stack, .typeDue⟩ p.unread := by
  refine (ends_enter h hstep).bind fun _ p₂ h₂ => ?_
  refine (h₂.follow (hy p₂ h₂.length_add_le) (Nat.le_add_right 1 1)).bind fun t p₃ h₃ => ?_
  refine (ends_leave h₃ _).bind fun _ p' ⟨h', hunread⟩ => ends_pure ?_
  rw [hunread]
  exact h'

/-! ## The readers -/

theorem follows_expect (token : Token) {s s' : State} (hs : Skips false s)
    (htakes : ∀ l, Is token l → step (some maxDepth) s l = .ok s')
    (hend : s.finish = .error (.unexpectedEnd (.token token)))
    (hrefuses : ∀ token' text span, token' ≠ token → token'.isTrivia false = false →
      step (some maxDepth) s (.token token' text span) =
        .error (.unexpectedToken (.token token) (.token token' text span)))
    (p : Place) (d : Nat) :
    Follows 1 (expect token) p d (answer s p.unread) fun _ p' => answer s' p'.unread := by
  refine (ends_scanSignificant false p _).bind fun found p₁ h => ?_
  cases found with
  | none => exact h.refuse_end hs hend
  | some l =>
      split
      next htoken => exact ends_pure (h.taken hs (htakes l htoken) d)
      next htoken =>
        cases l with
        | illegal char span => exact h.refuse hs rfl
        | token token' text span =>
            refine h.refuse hs (hrefuses token' text span ?_ ?_)
            · exact fun heq => htoken (congrArg some heq)
            · exact Bool.eq_false_iff.mpr fun ht => h.significant _ rfl ⟨token', rfl, ht⟩

theorem follows_closeBracket (stack : List Frame) (items : Schema) (p : Place) (d : Nat) :
    Follows 1 (expect .closeBracket) p d (answer ⟨.array :: stack, .typed items⟩ p.unread)
      fun _ p' => answer ⟨stack, .declared (.array items)⟩ p'.unread := by
  refine follows_expect .closeBracket (skips_breaks fun _ hl => step_token hl nofun)
    (fun _ hl => step_token hl nofun) rfl (fun token text span hne htrivia => ?_) p d
  cases token with
  | closeBracket => exact absurd rfl hne
  | whitespace | newline => cases htrivia
  | string | number | boolean | null | any | openBrace | closeBrace | openBracket | colon
  | semicolon | question | identifier => rfl

theorem follows_colon (stack : List Frame) (done : List (String × Schema)) (name : String)
    (p : Place) (d : Nat) :
    Follows 1 (expect .colon) p d (answer ⟨stack, .colonDue done name⟩ p.unread)
      fun _ p' => answer ⟨.object done name :: stack, .typeDue⟩ p'.unread := by
  refine follows_expect .colon (skips_breaks fun _ hl => step_token hl nofun)
    (fun _ hl => step_token hl nofun) rfl (fun token text span hne htrivia => ?_) p d
  cases token with
  | colon => exact absurd rfl hne
  | whitespace | newline => cases htrivia
  | string | number | boolean | null | any | openBrace | closeBrace | openBracket
  | closeBracket | semicolon | question | identifier => rfl

theorem follows_propertyEnd (stack : List Frame) (done : List (String × Schema))
    (name : String) (t : Schema) (p : Place) (d : Nat) :
    Follows 0 (readPropertyEnd name) p d (answer ⟨.object done name :: stack, .typed t⟩ p.unread)
      fun _ p' => answer ⟨stack, .propertyDue (NameMap.insert name t done)⟩ p'.unread := by
  have hs := skips_blanks ⟨.object done name :: stack, .typed t⟩
  refine (ends_scanSignificant true p _).bind fun found p₁ h => ?_
  cases found with
  | none => exact h.refuse_end hs rfl
  | some l =>
      cases l with
      | illegal char span => exact h.refuse hs rfl
      | token token text span =>
          cases token with
          | semicolon | newline => exact ends_pure ((h.taken hs rfl d).weaken (Nat.zero_le 1))
          | closeBrace =>
              exact h.kept hs
                (fun ls _ => (answer_of_step rfl ls).trans (answer_of_step rfl ls).symm) d _
          | whitespace => exact absurd ⟨_, rfl, rfl⟩ (h.significant _ rfl)
          | string | number | boolean | null | any | openBrace | openBracket | closeBracket
          | colon | question | identifier => exact h.refuse hs rfl

/-- What the readers of containers do, after an opening bracket that the machine has taken. -/
structure Containers (rounds : Nat) (p : Place) : Prop where
  array : ∀ stack : List Frame,
    Follows 1 (readArray rounds) p (stack.length + 1) (answer ⟨stack, .itemsDue⟩ p.unread)
      fun t p' => answer ⟨stack, .declared t⟩ p'.unread
  properties : ∀ (stack : List Frame) (done : List (String × Schema)),
    Follows 1 (readProperties rounds done) p (stack.length + 1)
      (answer ⟨stack, .propertyDue done⟩ p.unread)
      fun t p' => answer ⟨stack, .declared t⟩ p'.unread

variable {rounds : Nat}

theorem follows_declaration (stack : List Frame)
    (hc : ∀ p' : Place, p'.unread.length < p.unread.length → Containers rounds p') :
    Follows 1 (readDeclaration (rounds + 1)) p stack.length (answer ⟨stack, .typeDue⟩ p.unread)
      fun t p' => answer ⟨stack, .declared t⟩ p'.unread := by
  have hs := skips_typeDue stack
  rw [readDeclaration]
  refine (ends_scanSignificant false p _).bind fun found p₁ h => ?_
  cases found with
  | none => exact h.refuse_end hs rfl
  | some l =>
      cases l with
      | illegal char span => exact h.refuse hs rfl
      | token token text span =>
          cases token with
          | openBracket => exact follows_inside h rfl fun p₂ hp₂ => (hc p₂ hp₂).array stack
          | openBrace => exact follows_inside h rfl fun p₂ hp₂ => (hc p₂ hp₂).properties stack []
          | string | number | boolean | null | any => exact ends_pure (h.taken hs rfl _)
          | whitespace | newline => exact absurd ⟨_, rfl, rfl⟩ (h.significant _ rfl)
          | closeBracket | closeBrace | colon | semicolon | question | identifier =>
              exact h.refuse hs rfl

/-- After a declaration nothing but a `?` is taken as being part of the type. -/
theorem step_declared (stack : List Frame) (t : Schema) (hblank : ¬Is .whitespace l)
    (hquestion : ¬Is .question l) :
    step (some maxDepth) ⟨stack, .declared t⟩ l = step (some maxDepth) ⟨stack, .typed t⟩ l := by
  cases l with
  | illegal char span => rfl
  | token token text span =>
      have hl : Is token (.token token text span) := rfl
      have hw : token ≠ .whitespace := fun heq => hblank (congrArg some heq)
      have hq : token ≠ .question := fun heq => hquestion (congrArg some heq)
      exact (step_type? rfl hl hw hq).trans (step_type? rfl hl hw hq).symm

/-- Where items are due and nothing closes the array, a type is due inside it. -/
theorem step_itemsDue (stack : List Frame) (hskipped : ¬Skipped false l)
    (hclose : ¬Is .closeBracket l) :
    step (some maxDepth) ⟨stack, .itemsDue⟩ l =
      step (some maxDepth) ⟨.array :: stack, .typeDue⟩ l := by
  cases l with
  | illegal char span => rfl
  | token token text span =>
      have hl : Is token (.token token text span) := rfl
      have hw : token ≠ .whitespace := fun heq => hskipped ⟨.whitespace, congrArg some heq, rfl⟩
      have hn : token ≠ .newline := fun heq => hskipped ⟨.newline, congrArg some heq, rfl⟩
      have hc : token ≠ .closeBracket := fun heq => hclose (congrArg some heq)
      rw [step_token hl hw, step_token hl hw]
      exact (stepToken_type token rfl hn hc).trans (stepToken_type token rfl hn hc).symm

/-- A match that has passed over a token has not found it. -/
theorem not_is_of_ne {found : Found} {token : Token}
    (h : ∀ text span, found = some (.token token text span) → False) (hl : found = some l) :
    ¬Is token l := by
  intro htoken
  cases l with
  | illegal char span => cases htoken
  | token token' text span =>
      cases htoken
      exact h text span hl

theorem follows_type (stack : List Frame)
    (hc : ∀ p' : Place, p'.unread.length < p.unread.length → Containers rounds p') :
    Follows 1 (readType (rounds + 1)) p stack.length (answer ⟨stack, .typeDue⟩ p.unread)
      fun t p' => answer ⟨stack, .typed t⟩ p'.unread := by
  rw [readType]
  refine (follows_declaration stack hc).bind fun t p₁ h₁ => ?_
  have hs := skips_blanks ⟨stack, .declared t⟩
  refine h₁.follow (n := 0) ?_ (Nat.le_refl 1)
  refine (ends_scanSignificant true p₁ _).bind fun next p₂ h => ?_
  split
  next text span => exact ends_pure ((h.taken hs rfl _).weaken (Nat.zero_le 1))
  next hquestion =>
    -- The machine has no slot, but it takes this lexeme as it would if the type were complete.
    have hstep : ∀ l, next = some l → step (some maxDepth) ⟨stack, .declared t⟩ l =
        step (some maxDepth) ⟨stack, .typed t⟩ l := fun l hl =>
      step_declared stack t (fun hblank => h.significant l hl ⟨_, hblank, rfl⟩)
        (not_is_of_ne hquestion hl)
    have hkept := h.kept hs (fun ls => answer_congr hstep rfl) stack.length
    exact (hkept _).bind fun _ p₃ h₃ => ends_pure h₃

theorem follows_array (stack : List Frame)
    (hc : ∀ p' : Place, p'.unread.length < p.unread.length → Containers rounds p') :
    Follows 1 (readArray (rounds + 1)) p (stack.length + 1) (answer ⟨stack, .itemsDue⟩ p.unread)
      fun t p' => answer ⟨stack, .declared t⟩ p'.unread := by
  have hs : Skips false ⟨stack, .itemsDue⟩ := skips_breaks fun _ hl => step_token hl nofun
  rw [readArray]
  refine (ends_scanSignificant false p _).bind fun next p₁ h => ?_
  split
  next text span => exact ends_pure (h.taken hs rfl _)
  next hclose =>
    -- The lexeme is the first of the item type, and the machine takes it for that as well.
    have hstep : ∀ l, next = some l → step (some maxDepth) ⟨stack, .itemsDue⟩ l =
        step (some maxDepth) ⟨.array :: stack, .typeDue⟩ l := fun l hl =>
      step_itemsDue stack (h.significant l hl) (not_is_of_ne hclose hl)
    have hkept := h.kept hs (fun ls => answer_congr hstep rfl) (stack.length + 1)
    refine (hkept _).bind fun _ p₂ h₂ => ?_
    have hitems := follows_type (.array :: stack) fun p' hp' =>
      hc p' (Nat.lt_of_lt_of_le hp' h₂.suffix.length_le)
    refine (h₂.follow hitems (Nat.le_refl 1)).bind fun items p₃ h₃ => ?_
    have hclosed := follows_closeBracket stack items p₃ (stack.length + 1)
    exact (h₃.follow hclosed (Nat.le_add_right 1 1)).bind fun _ p₄ h₄ => ends_pure h₄

theorem follows_properties (stack : List Frame) (done : List (String × Schema))
    (hc : ∀ p' : Place, p'.unread.length < p.unread.length → Containers rounds p') :
    Follows 1 (readProperties (rounds + 1) done) p (stack.length + 1)
      (answer ⟨stack, .propertyDue done⟩ p.unread)
      fun t p' => answer ⟨stack, .declared t⟩ p'.unread := by
  have hs : Skips false ⟨stack, .propertyDue done⟩ := skips_breaks fun _ hl => step_token hl nofun
  rw [readProperties]
  refine (ends_scanSignificant false p _).bind fun found p₁ h => ?_
  cases found with
  | none => exact h.refuse_end hs rfl
  | some l =>
      cases l with
      | illegal char span => exact h.refuse hs rfl
      | token token text span =>
          cases token with
          | closeBrace => exact ends_pure (h.taken hs rfl _)
          | whitespace | newline => exact absurd ⟨_, rfl, rfl⟩ (h.significant _ rfl)
          | string | number | boolean | null | any | openBrace | openBracket | closeBracket
          | colon | semicolon | question => exact h.refuse hs rfl
          | identifier =>
              have hname : Reached 1 p (stack.length + 1) _ p₁ (stack.length + 1)
                  (answer ⟨stack, .colonDue done text⟩ p₁.unread) := h.taken hs rfl _
              have hcolon := follows_colon stack done text p₁ (stack.length + 1)
              refine (hname.follow hcolon (Nat.le_add_right 1 1)).bind fun _ p₂ h₂ => ?_
              have htype := follows_type (.object done text :: stack) fun p' hp' =>
                hc p' (Nat.lt_of_lt_of_le hp' h₂.suffix.length_le)
              refine (h₂.follow htype (Nat.le_add_right 1 1)).bind fun t p₃ h₃ => ?_
              have hend := follows_propertyEnd stack done text t p₃ (stack.length + 1)
              refine (h₃.follow hend (Nat.le_refl 1)).bind fun _ p₄ h₄ => ?_
              -- The name has been taken, so there is less left for the other properties.
              have hmore := (hc p₄ h₄.length_add_le).properties stack (NameMap.insert text t done)
              exact h₄.follow hmore (Nat.le_add_right 1 1)

/-- More rounds than there are lexemes left are enough. -/
theorem containers {p : Place} (h : p.unread.length < rounds) : Containers rounds p := by
  induction rounds generalizing p with
  | zero => exact absurd h (Nat.not_lt_zero _)
  | succ rounds ih =>
      have hc : ∀ p' : Place, p'.unread.length < p.unread.length → Containers rounds p' :=
        fun p' hp' => ih (Nat.lt_of_lt_of_le hp' (Nat.le_of_lt_succ h))
      exact ⟨fun stack => follows_array stack hc,
        fun stack done => follows_properties stack done hc⟩

theorem follows_type_of_lt (stack : List Frame) (h : p.unread.length < rounds) :
    Follows 1 (readType rounds) p stack.length (answer ⟨stack, .typeDue⟩ p.unread)
      fun t p' => answer ⟨stack, .typed t⟩ p'.unread := by
  cases rounds with
  | zero => exact absurd h (Nat.not_lt_zero _)
  | succ rounds =>
      exact follows_type stack fun p' hp' =>
        containers (Nat.lt_of_lt_of_le hp' (Nat.le_of_lt_succ h))

theorem ends_schema {source : String} (h : (tokenize source).length < rounds) :
    Ends (readSchema rounds) (.ofSource source) (fun t _ => .ok t = parse source)
      fun e => .error e = parse source := by
  have hlevel : (Place.ofSource source).Level 0 := ⟨nofun, rfl, Nat.zero_le _⟩
  have hparse : answer .start (Place.ofSource source).unread = parse source :=
    (ofLexemes_bind (some maxDepth) (tokenize source)).symm
  have htype := follows_type_of_lt [] (p := .ofSource source) h
  refine (htype.imp (fun _ _ => id) fun e he => ?_).bind fun t p₁ h₁ => ?_
  · exact (he hlevel).trans hparse
  have hs : Skips false ⟨[], .typed t⟩ := skips_breaks fun _ hl => step_token hl nofun
  have hanswer : answer ⟨[], .typed t⟩ p₁.unread = parse source :=
    (h₁.answer_eq hlevel).trans hparse
  refine (ends_scanSignificant false p₁ _).bind fun found p₂ h => ?_
  rw [← hanswer, h.answer_eq hs]
  cases found with
  | none =>
      rw [h.atEnd (h₁.level hlevel).sound rfl]
      exact ends_pure rfl
  | some l =>
      cases l with
      | illegal char span => exact ends_refuse (answer_of_error rfl _).symm
      | token token text span =>
          refine ends_refuse (answer_of_error ?_ _).symm
          cases token with
          | whitespace | newline => exact absurd ⟨_, rfl, rfl⟩ (h.significant _ rfl)
          | string | number | boolean | null | any | openBrace | closeBrace | openBracket
          | closeBracket | colon | semicolon | question | identifier => rfl

/-- The readers and the machine give the same answer for every text. -/
theorem read_eq {source : String} (h : (tokenize source).length < rounds) :
    read rounds source = some ((parse source).mapError .refused) := by
  have hread : read rounds source = (readSchema rounds (.ofSource source)).run.bind fun
      | .ok (t, _) => some (.ok t)
      | .error e => some (.error e) := by
    rw [read, StateT.run', ExceptT.run_map]
    cases (readSchema rounds (Place.ofSource source)).run with
    | none => rfl
    | some result => cases result <;> rfl
  rw [hread]
  cases ends_schema h with
  | done hx ht =>
      rw [hx, ← ht]
      rfl
  | refused hx he =>
      rw [hx, ← he]
      rfl

/-! ## Progress -/

/-- The reader comes to an end at `p` and never puts back a second lexeme.  If it succeeds,
what is left is a suffix of what was left before, at least `n` lexemes have been taken, and it
is inside as many brackets as before. -/
def Progresses (n : Nat) (x : Reads α) (p : Place) : Prop :=
  (∃ a p', (x p).run = some (.ok (a, p')) ∧ p'.unread <:+ p.unread ∧
    p'.unread.length + n ≤ p.unread.length ∧ p'.depth = p.depth) ∨
  ∃ e, (x p).run = some (.error (.refused e))

theorem Follows.progresses (h : Follows n x p d r next) : Progresses n x p := by
  cases h with
  | @done a p' hx h' =>
      have hdepth : p'.depth = p.depth := Nat.add_right_cancel h'.depth_add_eq
      exact .inl ⟨a, p', hx, h'.suffix, h'.length_add_le, hdepth⟩
  | @refused e hx _ => exact .inr ⟨e, hx⟩

/-- All readers come to an end at all places, whether or not something has been put back there
and whatever is left, and they need no more rounds than there are lexemes left, and one.  A
type, an array and an object take something, the end of a property may take nothing.  And the
readers together give the answer of the machine. -/
theorem readers_progress (rounds : Nat) :
    (∀ p : Place, p.unread.length < rounds →
      Progresses 1 (readType rounds) p ∧ Progresses 1 (readArray rounds) p ∧
        Progresses 1 (readObject rounds) p ∧
        ∀ done, Progresses 1 (readProperties rounds done) p) ∧
    (∀ p name, Progresses 0 (readPropertyEnd name) p) ∧
    ∀ source, (tokenize source).length < rounds →
      read rounds source = some ((parse source).mapError .refused) := by
  refine ⟨fun p h => ⟨?_, ?_, ?_, fun done => ?_⟩, fun p name => ?_, fun source => read_eq⟩
  · exact (follows_type_of_lt [] h).progresses
  · exact ((containers h).array []).progresses
  · exact ((containers h).properties [] []).progresses
  · exact ((containers h).properties [] done).progresses
  · exact (follows_propertyEnd [] [] name (.ofKind .any) p 0).progresses

/-- A keyword has been put back inside as many brackets as there may be, and a bracket is open
in the rest of the text. -/
def keptKeyword : Place := ⟨.ofSource "?\n [:", some (some (.token .any "any" ⟨0, 3⟩)), maxDepth⟩

theorem readers_progress_keptKeyword :
    (keptKeyword.unread.length < 7 ∧ (tokenize "[any").length < 7) ∧
      Progresses 1 (readType 7) keptKeyword ∧ Progresses 1 (readArray 7) keptKeyword ∧
      Progresses 0 (readPropertyEnd "a") keptKeyword ∧
      read 7 "[any" = some ((parse "[any").mapError .refused) := by
  have hplace : keptKeyword.unread.length < 7 := by decide +kernel
  have hsource : (tokenize "[any").length < 7 := by decide +kernel
  obtain ⟨hreaders, hend, hread⟩ := readers_progress 7
  obtain ⟨htype, harray, -, -⟩ := hreaders keptKeyword hplace
  exact ⟨⟨hplace, hsource⟩, htype, harray, hend keptKeyword "a", hread "[any" hsource⟩

end Descent

end Parse

end Jstn
