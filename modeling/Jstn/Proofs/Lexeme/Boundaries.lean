import Jstn.Proofs.Lexeme

/-!
# Where lexemes end

Scanning looks at most one character beyond a lexeme.  So a text may be cut before any of
its lexemes, and the first part has the lexemes before the cut (`Scanner.exists_cut`).  And
more text may be put after a text without a change to the lexemes that are there, as long
as the last of them does not go on with it (`Scanner.lexemes_append`).
-/

namespace Jstn

/-- The characters with which a lexeme goes on that begins with `c`. -/
def goesOn (c : Char) : Char → Bool :=
  if isBlank c then isBlank
  else if isBreak c then isBreak
  else if isWordStart c then isWordPart
  else fun _ => false

/-- The token of a lexeme that begins with `c` and goes on with `more`. -/
def tokenOf? (c : Char) (more : List Char) : Option Token :=
  if isBlank c then some .whitespace
  else if isBreak c then some .newline
  else if isWordStart c then some (.ofWord (c :: more))
  else Token.ofPunctuation? c

/-- Whether a token is a word. -/
def Token.isWord (token : Token) : Bool := token = .identifier || token.kind?.isSome

/-- The characters with which a lexeme of a token goes on. -/
def Token.goesOn (token : Token) : Char → Bool :=
  if token = .whitespace then isBlank
  else if token = .newline then isBreak
  else if token.isWord then isWordPart
  else fun _ => false

/-- The characters with which a lexeme goes on.  A character that begins no token stands
alone. -/
def Lexeme.goesOn (l : Lexeme) : Char → Bool :=
  match l.token? with
  | some t => t.goesOn
  | none => fun _ => false

/-! ## Longest matches -/

theorem takeWhile_false (cs : List Char) : cs.takeWhile (fun _ => false) = [] := by
  cases cs <;> rfl

/-- A lexeme is the longest run of characters with which it goes on. -/
theorem munch_eq (c : Char) (cs : List Char) :
    munch c cs = (tokenOf? c (cs.takeWhile (goesOn c)), cs.takeWhile (goesOn c)) := by
  unfold munch tokenOf? goesOn
  by_cases hblank : isBlank c = true
  · simp only [if_pos hblank]
  · by_cases hbreak : isBreak c = true
    · simp only [if_neg hblank, if_pos hbreak]
    · by_cases hword : isWordStart c = true
      · simp only [if_neg hblank, if_neg hbreak, if_pos hword]
      · simp only [if_neg hblank, if_neg hbreak, if_neg hword, takeWhile_false]

theorem Token.isWord_ofWord (word : List Char) : (Token.ofWord word).isWord = true := by
  have hkeywords : ∀ token ∈ keywords, token.isWord = true := by decide
  rw [ofWord]
  cases h : keywords.find? (spells word) with
  | none => rfl
  | some token => exact hkeywords token (List.mem_of_find?_eq_some h)

theorem Token.goesOn_ofWord (word : List Char) : (Token.ofWord word).goesOn = isWordPart := by
  have hword := isWord_ofWord word
  have hne : ∀ token, isWord token = false → ofWord word ≠ token := by
    rintro token htoken rfl
    rw [hword] at htoken
    cases htoken
  rw [goesOn, if_neg (hne _ rfl), if_neg (hne _ rfl), if_pos hword]

theorem Token.goesOn_of_ofPunctuation? {c : Char} {token : Token}
    (h : ofPunctuation? c = some token) : token.goesOn = fun _ => false := by
  unfold ofPunctuation? at h
  split at h
  case h_8 => cases h
  all_goals
    cases h
    rfl

/-- Text after a run that has ended, or that does not go on with it, is not part of it. -/
theorem takeWhile_dropWhile_append {p : Char → Bool} {cs x : List Char}
    (h : cs.dropWhile p = [] → Apart p x) :
    (cs ++ x).takeWhile p = cs.takeWhile p ∧ (cs ++ x).dropWhile p = cs.dropWhile p ++ x := by
  induction cs with
  | nil =>
      have hnone : ∀ c ∈ ([] : List Char), p c = true := nofun
      exact ⟨takeWhile_of_apart hnone (h rfl), dropWhile_of_apart hnone (h rfl)⟩
  | cons c cs ih =>
      by_cases hc : p c = true
      · rw [List.dropWhile_cons_of_pos hc] at h
        obtain ⟨htake, hdrop⟩ := ih h
        rw [List.cons_append, List.takeWhile_cons_of_pos hc, List.takeWhile_cons_of_pos hc,
          List.dropWhile_cons_of_pos hc, List.dropWhile_cons_of_pos hc, htake]
        exact ⟨rfl, hdrop⟩
      · rw [List.cons_append, List.takeWhile_cons_of_neg hc, List.takeWhile_cons_of_neg hc,
          List.dropWhile_cons_of_neg hc, List.dropWhile_cons_of_neg hc]
        exact ⟨rfl, rfl⟩

theorem apart_dropWhile (p : Char → Bool) (cs : List Char) : Apart p (cs.dropWhile p) := by
  intro c hc
  have hhead := List.head?_dropWhile_not p cs
  rw [Option.mem_def.mp hc] at hhead
  exact hhead

theorem Apart.of_append {p : Char → Bool} {cs x : List Char} (h : Apart p (cs ++ x)) :
    Apart p cs := by
  cases cs with
  | nil => exact apart_nil p
  | cons c cs => exact h

/-! ## Texts and their lexemes -/

theorem utf8Length_cons (c : Char) (cs : List Char) :
    utf8Length (c :: cs) = c.utf8Size + utf8Length cs := rfl

theorem utf8Length_append (cs ds : List Char) :
    utf8Length (cs ++ ds) = utf8Length cs + utf8Length ds := by
  induction cs with
  | nil => exact (Nat.zero_add _).symm
  | cons c cs ih => rw [List.cons_append, utf8Length_cons, utf8Length_cons, ih, Nat.add_assoc]

theorem utf8ByteSize_ofList (cs : List Char) : (String.ofList cs).utf8ByteSize = utf8Length cs := by
  induction cs with
  | nil => rfl
  | cons c cs ih =>
      rw [String.ofList_cons, String.utf8ByteSize_append, ih, String.utf8ByteSize_singleton,
        utf8Length_cons]

/-- The lexeme of a run of characters. -/
def Lexeme.ofRun (c : Char) (more : List Char) (offset : Nat) : Lexeme :=
  match tokenOf? c more with
  | some t => .token t (String.ofList (c :: more)) ⟨offset, offset + utf8Length (c :: more)⟩
  | none => .illegal c ⟨offset, offset + utf8Length (c :: more)⟩

theorem Lexeme.token?_ofRun (c : Char) (more : List Char) (offset : Nat) :
    (ofRun c more offset).token? = tokenOf? c more := by
  unfold ofRun
  cases tokenOf? c more <;> rfl

/-- What a lexeme goes on with can be told from its token. -/
theorem Lexeme.goesOn_ofRun (c : Char) (more : List Char) (offset : Nat) :
    (ofRun c more offset).goesOn = Jstn.goesOn c := by
  rw [goesOn, token?_ofRun, tokenOf?, Jstn.goesOn]
  by_cases hblank : isBlank c = true
  · rw [if_pos hblank, if_pos hblank]
    rfl
  · rw [if_neg hblank, if_neg hblank]
    by_cases hbreak : isBreak c = true
    · rw [if_pos hbreak, if_pos hbreak]
      rfl
    · rw [if_neg hbreak, if_neg hbreak]
      by_cases hword : isWordStart c = true
      · rw [if_pos hword, if_pos hword]
        exact Token.goesOn_ofWord _
      · rw [if_neg hword, if_neg hword]
        cases htoken : Token.ofPunctuation? c with
        | some token => exact Token.goesOn_of_ofPunctuation? htoken
        | none => rfl

/-- Only a word goes on with a character that is neither blank nor a line break. -/
theorem Lexeme.goesOn_eq_false {l : Lexeme} {c : Char} (hblank : isBlank c = false)
    (hbreak : isBreak c = false)
    (hword : ∀ token, l.token? = some token → token.isWord = true → isWordPart c = false) :
    l.goesOn c = false := by
  unfold goesOn
  cases htoken : l.token? with
  | none => rfl
  | some token =>
      simp only [Token.goesOn]
      split
      · exact hblank
      · split
        · exact hbreak
        · split
          next h => exact hword token htoken h
          next => rfl

theorem Lexeme.start_ofRun (c : Char) (more : List Char) (offset : Nat) :
    (ofRun c more offset).span.start = offset := by
  unfold ofRun
  cases tokenOf? c more <;> rfl

/-- Induction on characters by the lexemes that they are cut into. -/
@[elab_as_elim]
theorem run_induction {motive : List Char → Prop} (nil : motive [])
    (cons : ∀ c cs, motive (cs.dropWhile (goesOn c)) → motive (c :: cs)) (cs : List Char) :
    motive cs := by
  induction hn : cs.length using Nat.strongRecOn generalizing cs with
  | ind n ih =>
      cases cs with
      | nil => exact nil
      | cons c cs =>
          have hshorter : (cs.dropWhile (goesOn c)).length < n := by
            rw [← hn, List.length_cons]
            exact Nat.lt_succ_of_le (List.dropWhile_sublist _).length_le
          exact cons c cs (ih _ hshorter _ rfl)

namespace Scanner

/-- A scan takes off a longest run. -/
theorem scan_cons (c : Char) (cs : List Char) (offset : Nat) :
    scan ⟨c :: cs, offset⟩ =
      (some (.ofRun c (cs.takeWhile (goesOn c)) offset), ⟨cs.dropWhile (goesOn c),
        offset + utf8Length (c :: cs.takeWhile (goesOn c))⟩) := by
  have hdrop : cs.drop (cs.takeWhile (goesOn c)).length = cs.dropWhile (goesOn c) :=
    calc cs.drop (cs.takeWhile (goesOn c)).length
      _ = (cs.takeWhile (goesOn c) ++ cs.dropWhile (goesOn c)).drop
            (cs.takeWhile (goesOn c)).length := by rw [List.takeWhile_append_dropWhile]
      _ = cs.dropWhile (goesOn c) := List.drop_left
  simp only [scan, munch_eq, hdrop]
  rfl

/-- The first lexeme is a longest run, and the rest is scanned from where it ends. -/
theorem lexemes_eq (c : Char) (cs : List Char) (offset : Nat) :
    lexemes ⟨c :: cs, offset⟩ =
      .ofRun c (cs.takeWhile (goesOn c)) offset ::
        lexemes ⟨cs.dropWhile (goesOn c),
          offset + utf8Length (c :: cs.takeWhile (goesOn c))⟩ := by
  have hscan := scan_cons c cs offset
  rw [lexemes]
  split
  next heq =>
    obtain ⟨hl, rfl⟩ := Prod.mk.inj (heq.symm.trans hscan)
    cases hl
    rfl
  next heq => cases heq.symm.trans hscan

/-- Every lexeme is a longest run. -/
theorem exists_ofRun_of_mem {s : Scanner} {l : Lexeme} (h : l ∈ s.lexemes) :
    ∃ (c : Char) (cs : List Char) (offset : Nat),
      l = .ofRun c (cs.takeWhile (goesOn c)) offset := by
  obtain ⟨cs, offset⟩ := s
  induction cs using run_induction generalizing offset with
  | nil =>
      rw [lexemes_nil] at h
      cases h
  | cons c cs ih =>
      rw [lexemes_eq] at h
      rcases List.mem_cons.mp h with rfl | h
      · exact ⟨c, cs, offset, rfl⟩
      · exact ih _ h

/-- More text after a text leaves its lexemes as they are, if the last one does not go on
with it. -/
theorem lexemes_append {cs x : List Char} {offset : Nat}
    (h : ∀ l ∈ (lexemes ⟨cs, offset⟩).getLast?, Apart l.goesOn x) :
    lexemes ⟨cs ++ x, offset⟩ = lexemes ⟨cs, offset⟩ ++ lexemes ⟨x, offset + utf8Length cs⟩ := by
  induction cs using run_induction generalizing offset with
  | nil => rw [lexemes_nil]; rfl
  | cons c cs ih =>
      rw [lexemes_eq] at h
      obtain ⟨htake, hdrop⟩ : (cs ++ x).takeWhile (goesOn c) = cs.takeWhile (goesOn c) ∧
          (cs ++ x).dropWhile (goesOn c) = cs.dropWhile (goesOn c) ++ x := by
        refine takeWhile_dropWhile_append fun hnil => ?_
        rw [hnil, lexemes_nil] at h
        rw [← Lexeme.goesOn_ofRun c (cs.takeWhile (goesOn c)) offset]
        exact h _ rfl
      have hlast : ∀ l ∈ (lexemes ⟨cs.dropWhile (goesOn c),
          offset + utf8Length (c :: cs.takeWhile (goesOn c))⟩).getLast?, Apart l.goesOn x := by
        intro l hl
        refine h l ?_
        rw [List.getLast?_cons, Option.mem_def.mp hl]
        rfl
      rw [List.cons_append, lexemes_eq, lexemes_eq, htake, hdrop, ih hlast, List.cons_append,
        Nat.add_assoc, ← utf8Length_append, List.cons_append, List.takeWhile_append_dropWhile]

/-- A text may be cut before any of its lexemes. -/
theorem exists_cut {cs : List Char} {offset : Nat} {pre post : List Lexeme} {l : Lexeme}
    (h : lexemes ⟨cs, offset⟩ = pre ++ l :: post) :
    ∃ before after, cs = before ++ after ∧ lexemes ⟨before, offset⟩ = pre ∧
      l.span.start = offset + utf8Length before := by
  induction pre generalizing cs offset with
  | nil =>
      cases cs with
      | nil =>
          rw [lexemes_nil] at h
          cases h
      | cons c cs =>
          rw [lexemes_eq] at h
          obtain ⟨rfl, -⟩ := List.cons.inj h
          exact ⟨[], c :: cs, rfl, lexemes_nil offset, Lexeme.start_ofRun ..⟩
  | cons m pre ih =>
      cases cs with
      | nil =>
          rw [lexemes_nil] at h
          cases h
      | cons c cs =>
          rw [lexemes_eq] at h
          obtain ⟨rfl, hrest⟩ := List.cons.inj h
          obtain ⟨before, after, hcs, hbefore, hstart⟩ := ih hrest
          have hapart : Apart (goesOn c) (before ++ after) := by
            rw [← hcs]
            exact apart_dropWhile _ cs
          have hrun : ∀ d ∈ cs.takeWhile (goesOn c), goesOn c d = true :=
            List.all_eq_true.mp List.all_takeWhile
          have hmore := takeWhile_of_apart hrun hapart.of_append
          have hmoreAfter := dropWhile_of_apart hrun hapart.of_append
          refine ⟨c :: (cs.takeWhile (goesOn c) ++ before), after, ?_, ?_, ?_⟩
          · rw [List.cons_append, List.append_assoc, ← hcs, List.takeWhile_append_dropWhile]
          · rw [lexemes_eq, hmore, hmoreAfter, hbefore]
          · rw [hstart, ← List.cons_append, utf8Length_append, Nat.add_assoc]

end Scanner

end Jstn
