import Jstn.Proofs.Lexeme.Boundaries
import Jstn.Proofs.Print
import Mathlib.Data.List.Chain
import Mathlib.Logic.Function.Iterate

/-!
# Lexemes tile a text

The lexemes of a text stand side by side from its first byte to its last.  Each is in the
class of its token, and none is cut short.  `Tiling` says so of a list of lexemes without
a scanner, and `tokenize` gives the only list of which it holds (`tiling_iff_tokenize`).

`Tiles` says the same of the characters from some offset on, one lexeme after the other.
There a lexeme is the longest run of characters with which it goes on, which is what the
scanner takes off (`Tiles.eq_lexemes`, `tiles_lexemes`).

Scanning on and on gives the lexemes in turn, and at the end of the text nothing more
(`Scanner.scan_after`).
-/

namespace Jstn

/-! ## Classes of lexemes -/

/-- A lexeme whose text is in the class of its token. -/
inductive Lexeme.Proper : Lexeme → Prop
  | whitespace {text : String} {span : Span} :
      text ≠ "" → (∀ c ∈ text.toList, isBlank c = true) → Proper (.token .whitespace text span)
  | newline {text : String} {span : Span} :
      text ≠ "" → (∀ c ∈ text.toList, isBreak c = true) → Proper (.token .newline text span)
  | keyword {token : Token} {kind : Kind} {keyword text : String} {span : Span} :
      token.kind? = some kind → kind.keyword? = some keyword →
      text.toList.map Char.toLower = keyword.toList → Proper (.token token text span)
  | identifier {text : String} {span : Span} :
      Schema.IsName text → Proper (.token .identifier text span)
  | punctuation {token : Token} {c : Char} {span : Span} :
      Token.ofPunctuation? c = some token → Proper (.token token c.toString span)
  | illegal {c : Char} {span : Span} :
      isBlank c = false → isBreak c = false → isWordStart c = false →
      Token.ofPunctuation? c = none → Proper (.illegal c span)

/-- The next lexeme does not go on with the run of the one before it. -/
structure Lexeme.Parted (l next : Lexeme) : Prop where
  /-- Runs of blanks do not stand side by side. -/
  blanks : ¬(l.token? = some .whitespace ∧ next.token? = some .whitespace)
  /-- Nor do runs of line breaks. -/
  breaks : ¬(l.token? = some .newline ∧ next.token? = some .newline)
  /-- No letter, digit or underscore follows a word. -/
  words : (∃ token, l.token? = some token ∧ token.isWord = true) →
    ∀ c ∈ next.text.toList.head?, isWordPart c = false

/-- A text stands at a span of the source. -/
def StandsAt (source : String) (span : Span) (text : String) : Prop :=
  ∃ before after, source = before ++ (text ++ after) ∧ span.start = before.utf8ByteSize ∧
    span.stop = (before ++ text).utf8ByteSize

/-- Lexemes that make up a source without loss, each as long as it can be. -/
structure Tiling (source : String) (ls : List Lexeme) : Prop where
  /-- The texts in a row are the source. -/
  texts : String.join (ls.map Lexeme.text) = source
  /-- Every text is what the source has at its span. -/
  slices : ∀ l ∈ ls, StandsAt source l.span l.text
  nonempty : ∀ l ∈ ls, l.span.start < l.span.stop
  /-- The spans go from the first byte to the last. -/
  first : ∀ l ∈ ls.head?, l.span.start = 0
  contiguous : ls.IsChain fun l next => l.span.stop = next.span.start
  last : ∀ l ∈ ls.getLast?, l.span.stop = source.utf8ByteSize
  /-- Every text is in the class of its token. -/
  proper : ∀ l ∈ ls, l.Proper
  /-- No run goes on in the next lexeme. -/
  maximal : ls.IsChain Lexeme.Parted

/-! ## Words -/

namespace Token

/-- A word that spells a keyword is that keyword. -/
theorem ofWord_of_keyword {word : List Char} {token : Token} {kind : Kind} {keyword : String}
    (ht : token.kind? = some kind) (hk : kind.keyword? = some keyword)
    (hw : word.map Char.toLower = keyword.toList) : ofWord word = token := by
  have hspells : ∀ other, spells word other = spells keyword.toList other := by
    intro other
    have hlower : keyword.toList.map Char.toLower = keyword.toList := by
      cases kind <;> cases hk <;> decide
    unfold spells
    rw [hw, hlower]
  rw [ofWord, funext hspells]
  cases token <;> cases ht <;> cases hk <;> decide

/-- A word that is no identifier spells a keyword. -/
theorem keyword_of_ofWord {word : List Char} (h : ofWord word ≠ identifier) :
    ∃ kind keyword, (ofWord word).kind? = some kind ∧ kind.keyword? = some keyword ∧
      word.map Char.toLower = keyword.toList := by
  cases hfind : keywords.find? (spells word) with
  | none =>
      rw [ofWord, hfind] at h
      exact absurd rfl h
  | some token =>
      have htoken : ofWord word = token := by rw [ofWord, hfind]; rfl
      have hspells : spells word token = true := List.find?_some hfind
      rw [htoken]
      unfold spells at hspells
      split at hspells
      next kind hk =>
        refine ⟨kind, kind.name, hk, ?_, of_decide_eq_true hspells⟩
        cases token <;> cases hk <;> rfl
      next => cases hspells

end Token

theorem isAlpha_of_toLower {c : Char} (h : c.toLower.isAlpha = true) : c.isAlpha = true := by
  have halpha : c.isAlpha = (c.isUpper || c.isLower) := rfl
  by_cases hupper : c.isUpper = true
  · rw [halpha, hupper, Bool.true_or]
  · have hsame : c.toLower = c := by
      unfold Char.toLower
      split
      next hrange => exact absurd (decide_eq_true hrange) hupper
      next => rfl
    rwa [hsame] at h

/-- What spells a keyword consists of letters. -/
theorem isAlpha_of_keyword {word : List Char} {kind : Kind} {keyword : String}
    (hk : kind.keyword? = some keyword) (hw : word.map Char.toLower = keyword.toList) :
    word ≠ [] ∧ ∀ c ∈ word, c.isAlpha = true := by
  have hletters : keyword.toList ≠ [] ∧ keyword.toList.all Char.isAlpha = true := by
    cases kind <;> cases hk <;> decide
  rw [← hw, List.all_eq_true] at hletters
  exact ⟨by simpa using hletters.1,
    fun c hc => isAlpha_of_toLower (hletters.2 _ (List.mem_map_of_mem hc))⟩

/-! ## Longest runs -/

/-- How a lexeme begins.  Its first character tells with which characters it goes on, and
of which token it is. -/
inductive Beginning (c : Char) : Prop
  | blanks : isBlank c = true → goesOn c = isBlank →
      (∀ more, tokenOf? c more = some .whitespace) → Beginning c
  | breaks : isBreak c = true → goesOn c = isBreak →
      (∀ more, tokenOf? c more = some .newline) → Beginning c
  | word : isWordStart c = true → goesOn c = isWordPart →
      (∀ more, tokenOf? c more = some (.ofWord (c :: more))) → Beginning c
  | alone : isBlank c = false → isBreak c = false → isWordStart c = false →
      goesOn c = (fun _ => false) → (∀ more, tokenOf? c more = Token.ofPunctuation? c) →
      Beginning c

theorem beginning (c : Char) : Beginning c := by
  by_cases hblank : isBlank c = true
  · exact .blanks hblank (by simp [goesOn, hblank]) (by simp [tokenOf?, hblank])
  · by_cases hbreak : isBreak c = true
    · exact .breaks hbreak (by simp [goesOn, hblank, hbreak]) (by simp [tokenOf?, hblank, hbreak])
    · by_cases hword : isWordStart c = true
      · exact .word hword (by simp [goesOn, hblank, hbreak, hword])
          (by simp [tokenOf?, hblank, hbreak, hword])
      · exact .alone (by simpa using hblank) (by simpa using hbreak) (by simpa using hword)
          (by simp [goesOn, hblank, hbreak, hword]) (by simp [tokenOf?, hblank, hbreak, hword])

theorem ofPunctuation?_ne {c : Char} {token : Token}
    (h : token = .whitespace ∨ token = .newline) : Token.ofPunctuation? c ≠ some token := by
  intro htoken
  unfold Token.ofPunctuation? at htoken
  split at htoken <;> cases htoken <;> simp at h

/-- The token of a lexeme tells whether it begins with a blank or with a line break. -/
theorem tokenOf?_eq_some_iff (c : Char) (more : List Char) :
    (tokenOf? c more = some .whitespace ↔ isBlank c = true) ∧
      (tokenOf? c more = some .newline ↔ isBreak c = true) := by
  cases beginning c with
  | blanks hblank _ htoken =>
      have hbreak : isBreak c ≠ true := by
        intro hbreak
        rw [isBlank_of_isBreak hbreak] at hblank
        cases hblank
      simp [htoken, hblank, hbreak]
  | breaks hbreak _ htoken => simp [htoken, hbreak, isBlank_of_isBreak hbreak]
  | word hword _ htoken =>
      have hne : ∀ token, token.isWord = false → Token.ofWord (c :: more) ≠ token := by
        rintro token hnot rfl
        rw [Token.isWord_ofWord] at hnot
        cases hnot
      have hspace : Token.ofWord (c :: more) ≠ .whitespace := hne _ rfl
      have hline : Token.ofWord (c :: more) ≠ .newline := hne _ rfl
      simp [htoken, hspace, hline, isBlank_of_isWordStart hword, isBreak_of_isWordStart hword]
  | alone hblank hbreak _ _ htoken => simp [htoken, hblank, hbreak, ofPunctuation?_ne]

namespace Lexeme

theorem span_ofRun (c : Char) (more : List Char) (offset : Nat) :
    (ofRun c more offset).span = ⟨offset, offset + utf8Length (c :: more)⟩ := by
  unfold ofRun
  cases tokenOf? c more <;> rfl

/-- The text of a longest run is the run. -/
theorem text_ofRun (c : Char) (cs : List Char) (offset : Nat) :
    (ofRun c (cs.takeWhile (Jstn.goesOn c)) offset).text.toList =
      c :: cs.takeWhile (Jstn.goesOn c) := by
  unfold ofRun
  cases beginning c with
  | blanks _ _ htoken | breaks _ _ htoken | word _ _ htoken => simp [htoken, text]
  | alone _ _ _ hgoesOn htoken =>
      rw [hgoesOn, takeWhile_false, htoken]
      cases Token.ofPunctuation? c <;> simp [text]

/-- A longest run is in the class of its token. -/
theorem proper_ofRun (c : Char) (cs : List Char) (offset : Nat) :
    (ofRun c (cs.takeWhile (Jstn.goesOn c)) offset).Proper := by
  have hne : ∀ more, String.ofList (c :: more) ≠ "" := by simp
  have hrun : ∀ d ∈ cs.takeWhile (Jstn.goesOn c), Jstn.goesOn c d = true :=
    List.all_eq_true.mp List.all_takeWhile
  unfold ofRun
  cases beginning c with
  | blanks hblank hgoesOn htoken =>
      rw [hgoesOn] at hrun ⊢
      rw [htoken]
      refine .whitespace (hne _) ?_
      rw [String.toList_ofList]
      exact List.forall_mem_cons.mpr ⟨hblank, hrun⟩
  | breaks hbreak hgoesOn htoken =>
      rw [hgoesOn] at hrun ⊢
      rw [htoken]
      refine .newline (hne _) ?_
      rw [String.toList_ofList]
      exact List.forall_mem_cons.mpr ⟨hbreak, hrun⟩
  | word hword hgoesOn htoken =>
      rw [hgoesOn] at hrun ⊢
      rw [htoken]
      generalize cs.takeWhile isWordPart = more at hrun ⊢
      by_cases hidentifier : Token.ofWord (c :: more) = .identifier
      · simp only [hidentifier]
        refine .identifier ⟨c, more, String.toList_ofList, hword, hrun, ?_⟩
        rw [String.toList_ofList]
        exact Token.map_toLower_ne_of_ofWord hidentifier
      · obtain ⟨kind, keyword, hkind, hkeyword, hspells⟩ := Token.keyword_of_ofWord hidentifier
        refine .keyword hkind hkeyword ?_
        rw [String.toList_ofList, hspells]
  | alone hblank hbreak hword hgoesOn htoken =>
      rw [hgoesOn, takeWhile_false, htoken]
      cases hmark : Token.ofPunctuation? c with
      | some token => exact .punctuation hmark
      | none => exact .illegal hblank hbreak hword hmark

/-- The text of a lexeme in the class of its token is a run of characters with which it
goes on. -/
theorem Proper.exists_run {l : Lexeme} (h : l.Proper) :
    ∃ c more, l.text.toList = c :: more ∧ l.token? = tokenOf? c more ∧
      ∀ d ∈ more, Jstn.goesOn c d = true := by
  cases h with
  | @whitespace text span hne hall =>
      obtain ⟨c, more, hchars⟩ := List.exists_cons_of_ne_nil (by simpa using hne : text.toList ≠ [])
      rw [hchars] at hall
      obtain ⟨hc, hmore⟩ := List.forall_mem_cons.mp hall
      exact ⟨c, more, hchars, by simp [token?, tokenOf?, hc],
        by simpa [Jstn.goesOn, hc] using hmore⟩
  | @newline text span hne hall =>
      obtain ⟨c, more, hchars⟩ := List.exists_cons_of_ne_nil (by simpa using hne : text.toList ≠ [])
      rw [hchars] at hall
      obtain ⟨hc, hmore⟩ := List.forall_mem_cons.mp hall
      have hblank := isBlank_of_isBreak hc
      exact ⟨c, more, hchars, by simp [token?, tokenOf?, hblank, hc],
        by simpa [Jstn.goesOn, hblank, hc] using hmore⟩
  | @keyword token kind keyword text span htoken hkeyword hspells =>
      obtain ⟨hne, hletters⟩ := isAlpha_of_keyword hkeyword hspells
      obtain ⟨c, more, hchars⟩ := List.exists_cons_of_ne_nil hne
      have hword := Token.ofWord_of_keyword htoken hkeyword hspells
      rw [hchars] at hletters hword
      obtain ⟨hc, hmore⟩ := List.forall_mem_cons.mp hletters
      have hstart : isWordStart c = true := hc
      have hblank := isBlank_of_isWordStart hstart
      have hbreak := isBreak_of_isWordStart hstart
      refine ⟨c, more, hchars, by simp [token?, tokenOf?, hblank, hbreak, hstart, hword], ?_⟩
      intro d hd
      simp [Jstn.goesOn, hblank, hbreak, hstart, isWordPart, Char.isAlphanum, hmore d hd]
  | @identifier text span hname =>
      obtain ⟨c, more, hchars, hstart, hmore, hkeyword⟩ := hname
      have hword := Token.ofWord_eq_identifier hkeyword
      have hblank := isBlank_of_isWordStart hstart
      have hbreak := isBreak_of_isWordStart hstart
      rw [hchars] at hword
      exact ⟨c, more, hchars, by simp [token?, tokenOf?, hblank, hbreak, hstart, hword],
        by simpa [Jstn.goesOn, hblank, hbreak, hstart] using hmore⟩
  | @punctuation token c span hmark =>
      refine ⟨c, [], by simp [text], ?_, by simp⟩
      have hmunch := munch_eq c []
      rw [munch_punctuation [] hmark] at hmunch
      exact (Prod.mk.inj hmunch).1
  | @illegal c span hblank hbreak hword hmark =>
      exact ⟨c, [], by simp [text], by simp [token?, tokenOf?, hblank, hbreak, hword, hmark],
        by simp⟩

theorem eq_ofRun {l : Lexeme} {c : Char} {more : List Char} {offset : Nat}
    (htext : l.text.toList = c :: more) (htoken : l.token? = tokenOf? c more)
    (hspan : l.span = ⟨offset, offset + utf8Length l.text.toList⟩) : l = ofRun c more offset := by
  rw [htext] at hspan
  cases l with
  | token token text span =>
      obtain rfl : text = String.ofList (c :: more) := by
        rw [← htext]
        exact String.ofList_toList.symm
      rw [ofRun, ← htoken, ← hspan]
      rfl
  | illegal d span =>
      obtain ⟨rfl, rfl⟩ : d = c ∧ [] = more := by simpa [text] using htext
      rw [ofRun, ← htoken, ← hspan]
      rfl

/-- Lexemes are parted if the first does not go on with the text of the next. -/
theorem parted_iff {l next : Lexeme} (hnext : next.Proper) :
    l.Parted next ↔ Apart l.goesOn next.text.toList := by
  obtain ⟨c, more, htext, htoken, -⟩ := hnext.exists_run
  obtain ⟨hblank, hbreak⟩ := tokenOf?_eq_some_iff c more
  rw [← htoken] at hblank hbreak
  constructor
  · rintro ⟨hblanks, hbreaks, hwords⟩ d hd
    obtain rfl : c = d := by simpa [htext] using hd
    unfold goesOn
    cases hl : l.token? with
    | none => rfl
    | some token =>
        rw [hl] at hblanks hbreaks hwords
        simp only [Token.goesOn]
        split
        next hspace => simpa [hspace, hblank] using hblanks
        next =>
          split
          next hline => simpa [hline, hbreak] using hbreaks
          next =>
            split
            next hword => exact hwords ⟨token, rfl, hword⟩ c (by rw [htext]; rfl)
            next => rfl
  · intro happart
    have hgoesOn : l.goesOn c = false := happart c (by rw [htext]; rfl)
    unfold goesOn at hgoesOn
    refine ⟨?_, ?_, ?_⟩
    · rintro ⟨hl, hspace⟩
      simp [hl, Token.goesOn, hblank.mp hspace] at hgoesOn
    · rintro ⟨hl, hline⟩
      simp [hl, Token.goesOn, hbreak.mp hline] at hgoesOn
    · rintro ⟨token, hl, hword⟩ d hd
      obtain rfl : c = d := by simpa [htext] using hd
      have hspace : token ≠ .whitespace := by
        rintro rfl
        cases hword
      have hline : token ≠ .newline := by
        rintro rfl
        cases hword
      simpa [hl, Token.goesOn, hspace, hline, hword] using hgoesOn

end Lexeme

/-! ## Tiles -/

/-- Lexemes that tile characters from an offset on. -/
inductive Tiles : Nat → List Char → List Lexeme → Prop
  | nil (offset : Nat) : Tiles offset [] []
  | cons {offset : Nat} {l : Lexeme} {rest : List Char} {ls : List Lexeme} :
      l.Proper → l.span = ⟨offset, offset + utf8Length l.text.toList⟩ → Apart l.goesOn rest →
      Tiles (offset + utf8Length l.text.toList) rest ls →
      Tiles offset (l.text.toList ++ rest) (l :: ls)

/-- The lexemes of the scanner tile what it scans. -/
theorem tiles_lexemes (cs : List Char) (offset : Nat) :
    Tiles offset cs (Scanner.lexemes ⟨cs, offset⟩) := by
  induction cs using run_induction generalizing offset with
  | nil =>
      rw [Scanner.lexemes_nil]
      exact .nil offset
  | cons c cs ih =>
      have htext := Lexeme.text_ofRun c cs offset
      have hspan := Lexeme.span_ofRun c (cs.takeWhile (goesOn c)) offset
      have hsplit : c :: cs = (Lexeme.ofRun c (cs.takeWhile (goesOn c)) offset).text.toList ++
          cs.dropWhile (goesOn c) := by
        rw [htext, List.cons_append, List.takeWhile_append_dropWhile]
      rw [Scanner.lexemes_eq, hsplit]
      refine .cons (Lexeme.proper_ofRun c cs offset) (by rw [hspan, htext]) ?_ ?_
      · rw [Lexeme.goesOn_ofRun]
        exact apart_dropWhile _ cs
      · rw [htext]
        exact ih _

namespace Tiles

variable {offset : Nat} {cs : List Char} {ls : List Lexeme}

/-- Only the lexemes of the scanner tile what it scans. -/
theorem eq_lexemes (h : Tiles offset cs ls) : ls = Scanner.lexemes ⟨cs, offset⟩ := by
  induction h with
  | nil offset => rw [Scanner.lexemes_nil]
  | @cons offset l rest ls hl hspan hrest _ ih =>
      obtain ⟨c, more, htext, htoken, hmore⟩ := hl.exists_run
      obtain rfl := Lexeme.eq_ofRun htext htoken hspan
      rw [Lexeme.goesOn_ofRun] at hrest
      rw [htext] at ih ⊢
      rw [List.cons_append, Scanner.lexemes_eq, takeWhile_of_apart hmore hrest,
        dropWhile_of_apart hmore hrest, ← ih]

theorem texts (h : Tiles offset cs ls) : ls.flatMap (fun l => l.text.toList) = cs := by
  induction h with
  | nil offset => rfl
  | cons _ _ _ _ ih => rw [List.flatMap_cons, ih]

theorem proper (h : Tiles offset cs ls) : ∀ l ∈ ls, l.Proper := by
  induction h with
  | nil offset => exact nofun
  | cons hl _ _ _ ih => exact List.forall_mem_cons.mpr ⟨hl, ih⟩

theorem first (h : Tiles offset cs ls) : ∀ l ∈ ls.head?, l.span.start = offset := by
  cases h with
  | nil offset => exact nofun
  | cons _ hspan _ _ =>
      intro l hl
      cases hl
      rw [hspan]

theorem contiguous (h : Tiles offset cs ls) :
    ls.IsChain fun l next => l.span.stop = next.span.start := by
  induction h with
  | nil offset => exact .nil
  | cons _ hspan _ htiles ih =>
      refine List.isChain_cons.mpr ⟨fun next hnext => ?_, ih⟩
      rw [hspan, htiles.first next hnext]

theorem last (h : Tiles offset cs ls) :
    ∀ l ∈ ls.getLast?, l.span.stop = offset + utf8Length cs := by
  induction h with
  | nil offset => exact nofun
  | @cons offset l rest ls _ hspan _ htiles ih =>
      intro last hlast
      rw [utf8Length_append, ← Nat.add_assoc]
      cases htiles with
      | nil =>
          obtain rfl : l = last := by simpa using hlast
          rw [hspan]
          rfl
      | cons =>
          refine ih last ?_
          simpa [List.getLast?_cons] using hlast

theorem maximal (h : Tiles offset cs ls) : ls.IsChain Lexeme.Parted := by
  induction h with
  | nil offset => exact .nil
  | cons _ _ hrest htiles ih =>
      refine List.isChain_cons.mpr ⟨fun next hnext => ?_, ih⟩
      cases htiles with
      | nil => cases hnext
      | cons hl _ _ _ =>
          cases hnext
          exact (Lexeme.parted_iff hl).mpr hrest.of_append

/-- A tile stands where its span says. -/
theorem slices (h : Tiles offset cs ls) : ∀ l ∈ ls, ∃ before after,
    cs = before ++ (l.text.toList ++ after) ∧ l.span.start = offset + utf8Length before ∧
      l.span.stop = offset + utf8Length (before ++ l.text.toList) := by
  induction h with
  | nil offset => exact nofun
  | @cons offset l rest ls _ hspan _ _ ih =>
      refine List.forall_mem_cons.mpr ⟨⟨[], rest, rfl, by rw [hspan]; rfl, by rw [hspan]; rfl⟩, ?_⟩
      intro other hother
      obtain ⟨before, after, hrest, hstart, hstop⟩ := ih other hother
      refine ⟨l.text.toList ++ before, after, by rw [hrest, List.append_assoc], ?_, ?_⟩
      · rw [hstart, utf8Length_append, Nat.add_assoc]
      · rw [hstop, List.append_assoc, utf8Length_append l.text.toList, Nat.add_assoc]

/-- Lexemes side by side are tiles. -/
theorem of_parts (hproper : ∀ l ∈ ls, l.Proper)
    (hwidth : ∀ l ∈ ls, l.span.stop = l.span.start + utf8Length l.text.toList)
    (hfirst : ∀ l ∈ ls.head?, l.span.start = offset)
    (hcontiguous : ls.IsChain fun l next => l.span.stop = next.span.start)
    (hmaximal : ls.IsChain Lexeme.Parted) :
    Tiles offset (ls.flatMap fun l => l.text.toList) ls := by
  induction ls generalizing offset with
  | nil => exact .nil offset
  | cons l ls ih =>
      obtain ⟨hl, hproper⟩ := List.forall_mem_cons.mp hproper
      obtain ⟨hstop, hwidth⟩ := List.forall_mem_cons.mp hwidth
      obtain ⟨hnext, hcontiguous⟩ := List.isChain_cons.mp hcontiguous
      obtain ⟨hparted, hmaximal⟩ := List.isChain_cons.mp hmaximal
      have hstart : l.span.start = offset := hfirst l rfl
      rw [hstart] at hstop
      have hspan : l.span = ⟨offset, offset + utf8Length l.text.toList⟩ := by
        rw [← hstop, ← hstart]
      have hrest : ∀ next ∈ ls.head?, next.span.start = offset + utf8Length l.text.toList := by
        intro next hmem
        rw [← hnext next hmem, hstop]
      rw [List.flatMap_cons]
      refine .cons hl hspan ?_ (ih hproper hwidth hrest hcontiguous hmaximal)
      cases ls with
      | nil => exact apart_nil _
      | cons next ls =>
          have hproperNext : next.Proper := hproper next List.mem_cons_self
          obtain ⟨c, more, htext, -, -⟩ := hproperNext.exists_run
          have happart := (Lexeme.parted_iff hproperNext).mp (hparted next rfl)
          rw [List.flatMap_cons, htext]
          rw [htext] at happart
          exact apart_cons _ (happart c rfl)

end Tiles

/-- The span of a text that stands in a source is as wide as the text. -/
theorem StandsAt.stop_eq {source text : String} {span : Span} (h : StandsAt source span text) :
    span.stop = span.start + utf8Length text.toList := by
  obtain ⟨before, after, -, hstart, hstop⟩ := h
  rw [hstop, hstart, String.utf8ByteSize_append, ← utf8ByteSize_ofList, String.ofList_toList]

theorem Tiling.tiles {source : String} {ls : List Lexeme} (h : Tiling source ls) :
    Tiles 0 source.toList ls := by
  have hsource : source.toList = ls.flatMap fun l => l.text.toList := by
    rw [← h.texts, String.toList_join, List.flatMap_map]
  rw [hsource]
  exact .of_parts h.proper (fun l hl => (h.slices l hl).stop_eq) h.first h.contiguous h.maximal

theorem Tiles.tiling {source : String} {ls : List Lexeme} (h : Tiles 0 source.toList ls) :
    Tiling source ls where
  texts := by
    rw [← String.toList_inj, String.toList_join, List.flatMap_map]
    exact h.texts
  slices := by
    intro l hl
    obtain ⟨before, after, hsource, hstart, hstop⟩ := h.slices l hl
    refine ⟨.ofList before, .ofList after, ?_, ?_, ?_⟩
    · rw [← String.toList_inj, hsource]
      simp
    · rw [hstart, utf8ByteSize_ofList, Nat.zero_add]
    · rw [hstop, Nat.zero_add, ← utf8ByteSize_ofList, String.ofList_append, String.ofList_toList]
  nonempty := by
    intro l hl
    obtain ⟨before, after, -, hstart, hstop⟩ := h.slices l hl
    obtain ⟨c, more, htext, -, -⟩ := (h.proper l hl).exists_run
    have hwide : 0 < utf8Length (c :: more) := Nat.add_pos_left (Char.utf8Size_pos c) _
    rw [hstart, hstop, utf8Length_append, htext]
    omega
  first := h.first
  contiguous := h.contiguous
  last := by
    intro l hl
    rw [h.last l hl, Nat.zero_add, ← utf8ByteSize_ofList, String.ofList_toList]
  proper := h.proper
  maximal := h.maximal

/-! ## Scanning on and on -/

namespace Scanner

/-- The place after some scans. -/
def after (s : Scanner) : Nat → Scanner
  | 0 => s
  | n + 1 => s.scan.2.after n

/-- Each scan gives the next lexeme, and none when all are read. -/
theorem scan_after (s : Scanner) (n : Nat) : (s.after n).scan.1 = s.lexemes[n]? := by
  induction n generalizing s with
  | zero =>
      obtain ⟨cs, offset⟩ := s
      cases cs with
      | nil =>
          rw [lexemes_nil]
          rfl
      | cons c cs =>
          rw [lexemes_eq, after, scan_cons]
          rfl
  | succ n ih =>
      obtain ⟨cs, offset⟩ := s
      rw [after, ih]
      cases cs with
      | nil =>
          rw [lexemes_nil]
          exact congrArg (·[n]?) (lexemes_nil offset)
      | cons c cs =>
          rw [lexemes_eq, scan_cons]
          rfl

/-- A scan reads the bytes that it takes off. -/
theorem offset_scan (s : Scanner) :
    s.scan.2.offset + utf8Length s.scan.2.rest = s.offset + utf8Length s.rest := by
  obtain ⟨cs, offset⟩ := s
  cases cs with
  | nil => rfl
  | cons c cs =>
      rw [scan_cons, Nat.add_assoc, ← utf8Length_append, List.cons_append,
        List.takeWhile_append_dropWhile]

theorem offset_after (s : Scanner) (n : Nat) :
    (s.after n).offset + utf8Length (s.after n).rest = s.offset + utf8Length s.rest := by
  induction n generalizing s with
  | zero => rfl
  | succ n ih => rw [after, ih, offset_scan]

/-- A scan that finds nothing stands at the end of the text and stays there. -/
theorem scan_eq_of_none {s : Scanner} (h : s.scan.1 = none) :
    s.scan = (none, ⟨[], s.offset + utf8Length s.rest⟩) := by
  obtain ⟨cs, offset⟩ := s
  cases cs with
  | nil => rfl
  | cons c cs =>
      rw [scan_cons] at h
      cases h

end Scanner

/-- The lexemes of a text are the one way to tile it with longest lexemes.  Scan after scan
gives them in turn, and from the end of the text on nothing. -/
theorem tiling_iff_tokenize (source : String) :
    (∀ ls, Tiling source ls ↔ ls = tokenize source) ∧
    (∀ n, ((Scanner.ofSource source).after n).scan.1 = (tokenize source)[n]?) ∧
    ∀ n, ((Scanner.ofSource source).after ((tokenize source).length + n)).scan =
      (none, ⟨[], source.utf8ByteSize⟩) := by
  refine ⟨fun ls => ⟨fun h => h.tiles.eq_lexemes, ?_⟩, Scanner.scan_after _, ?_⟩
  · rintro rfl
    exact (tiles_lexemes source.toList 0).tiling
  · intro n
    have hnone : ((Scanner.ofSource source).after ((tokenize source).length + n)).scan.1 =
        none := by
      rw [Scanner.scan_after]
      exact List.getElem?_eq_none (Nat.le_add_right _ n)
    have hsize : utf8Length source.toList = source.utf8ByteSize := by
      rw [← utf8ByteSize_ofList, String.ofList_toList]
    rw [Scanner.scan_eq_of_none hnone, Scanner.offset_after]
    simp only [Scanner.ofSource, Nat.zero_add, hsize]

example : (tokenize "STRING_1 any9é\t x").map Lexeme.token? =
    [some .identifier, some .whitespace, some .identifier, none, some .whitespace,
      some .identifier] := by
  decide +kernel

end Jstn
