import Jstn.Lexeme

/-!
# Taking one lexeme off a text

A lexeme is as long as it can be, so what it is depends on the text after it.  Blanks,
line breaks and words end where a character of another class follows (`Apart`).  A
punctuation mark never goes on.

`Scanner.lexemes_cons` takes one lexeme off a text whose first part is known.  The rest is
scanned as if it stood alone, only at another offset.
-/

namespace Jstn

/-- The text does not begin with a character of the class. -/
def Apart (p : Char → Bool) (rest : List Char) : Prop := ∀ c ∈ rest.head?, p c = false

theorem apart_nil (p : Char → Bool) : Apart p [] := nofun

theorem apart_cons {p : Char → Bool} {c : Char} (cs : List Char) (h : p c = false) :
    Apart p (c :: cs) := by
  intro d hd
  cases hd
  exact h

theorem takeWhile_of_apart {p : Char → Bool} {cs rest : List Char} (hcs : ∀ c ∈ cs, p c = true)
    (hrest : Apart p rest) : (cs ++ rest).takeWhile p = cs := by
  rw [List.takeWhile_append_of_pos hcs]
  cases rest with
  | nil => exact List.append_nil cs
  | cons c rest =>
      have hc : ¬p c = true := Bool.eq_false_iff.mp (hrest c rfl)
      rw [List.takeWhile_cons_of_neg hc, List.append_nil]

theorem dropWhile_of_apart {p : Char → Bool} {cs rest : List Char} (hcs : ∀ c ∈ cs, p c = true)
    (hrest : Apart p rest) : (cs ++ rest).dropWhile p = rest := by
  have hsplit := List.takeWhile_append_dropWhile (p := p) (l := cs ++ rest)
  rw [takeWhile_of_apart hcs hrest] at hsplit
  exact List.append_cancel_left hsplit

/-! ## Character classes -/

theorem isBlank_of_isBreak {c : Char} (h : isBreak c = true) : isBlank c = false := by
  rw [isBreak, Bool.or_eq_true, decide_eq_true_eq, decide_eq_true_eq] at h
  rcases h with rfl | rfl <;> rfl

theorem isBlank_of_isWordStart {c : Char} (h : isWordStart c = true) : isBlank c = false := by
  rw [isBlank, Bool.or_eq_false_iff, decide_eq_false_iff_not, decide_eq_false_iff_not]
  constructor <;> (rintro rfl; cases h)

theorem isBreak_of_isWordStart {c : Char} (h : isWordStart c = true) : isBreak c = false := by
  rw [isBreak, Bool.or_eq_false_iff, decide_eq_false_iff_not, decide_eq_false_iff_not]
  constructor <;> (rintro rfl; cases h)

/-! ## One lexeme -/

theorem munch_blanks {c : Char} {cs rest : List Char} (hc : isBlank c = true)
    (hcs : ∀ d ∈ cs, isBlank d = true) (hrest : Apart isBlank rest) :
    munch c (cs ++ rest) = (some .whitespace, cs) := by
  rw [munch, if_pos hc, takeWhile_of_apart hcs hrest]

theorem munch_breaks {c : Char} {cs rest : List Char} (hc : isBreak c = true)
    (hcs : ∀ d ∈ cs, isBreak d = true) (hrest : Apart isBreak rest) :
    munch c (cs ++ rest) = (some .newline, cs) := by
  have hblank : ¬isBlank c = true := Bool.eq_false_iff.mp (isBlank_of_isBreak hc)
  rw [munch, if_neg hblank, if_pos hc, takeWhile_of_apart hcs hrest]

theorem munch_word {c : Char} {cs rest : List Char} (hc : isWordStart c = true)
    (hcs : ∀ d ∈ cs, isWordPart d = true) (hrest : Apart isWordPart rest) :
    munch c (cs ++ rest) = (some (Token.ofWord (c :: cs)), cs) := by
  have hblank : ¬isBlank c = true := Bool.eq_false_iff.mp (isBlank_of_isWordStart hc)
  have hbreak : ¬isBreak c = true := Bool.eq_false_iff.mp (isBreak_of_isWordStart hc)
  rw [munch, if_neg hblank, if_neg hbreak, if_pos hc, takeWhile_of_apart hcs hrest]

theorem munch_punctuation {c : Char} {token : Token} (rest : List Char)
    (h : Token.ofPunctuation? c = some token) : munch c rest = (some token, []) := by
  unfold Token.ofPunctuation? at h
  split at h
  case h_8 => cases h
  all_goals
    cases h
    rfl

namespace Scanner

theorem lexemes_nil (offset : Nat) : lexemes ⟨[], offset⟩ = [] := by
  rw [lexemes]
  rfl

/-- The first lexeme is taken off, and the rest is scanned from where it ends. -/
theorem lexemes_cons {c : Char} {cs rest : List Char} {token : Token} (offset : Nat)
    (h : munch c (cs ++ rest) = (some token, cs)) :
    lexemes ⟨c :: (cs ++ rest), offset⟩ =
      .token token (String.ofList (c :: cs)) ⟨offset, offset + utf8Length (c :: cs)⟩ ::
        lexemes ⟨rest, offset + utf8Length (c :: cs)⟩ := by
  have hscan : scan ⟨c :: (cs ++ rest), offset⟩ =
      (some (.token token (String.ofList (c :: cs)) ⟨offset, offset + utf8Length (c :: cs)⟩),
        ⟨rest, offset + utf8Length (c :: cs)⟩) := by
    simp only [scan, h, List.drop_left]
  rw [lexemes]
  split
  next heq =>
    obtain ⟨hl, rfl⟩ := Prod.mk.inj (heq.symm.trans hscan)
    cases hl
    rfl
  next heq => cases heq.symm.trans hscan

end Scanner

/-! ## Words -/

namespace Token

/-- The word of a kind is the keyword that declares it. -/
theorem kind?_ofWord {kind : Kind} {word : String} (h : kind.keyword? = some word) :
    (ofWord word.toList).kind? = some kind := by
  cases kind <;> cases h <;> decide

/-- A word that is no kind's, in any case, is an identifier. -/
theorem ofWord_eq_identifier {word : List Char}
    (h : ∀ (kind : Kind) (keyword : String), kind.keyword? = some keyword →
      word.map Char.toLower ≠ keyword.toList) : ofWord word = identifier := by
  have hnone : keywords.find? (spells word) = none := by
    rw [List.find?_eq_none]
    intro token htoken hspells
    unfold spells at hspells
    split at hspells
    next kind hkind =>
      refine h kind kind.name ?_ (of_decide_eq_true hspells)
      cases token <;> cases hkind <;> rfl
    next => cases hspells
  rw [ofWord, hnone]
  rfl

/-- An identifier is no keyword, in any case. -/
theorem map_toLower_ne_of_ofWord {word : List Char} (h : ofWord word = identifier) (kind : Kind)
    (keyword : String) (hk : kind.keyword? = some keyword) :
    word.map Char.toLower ≠ keyword.toList := by
  intro hword
  obtain ⟨token, hmem, htoken⟩ : ∃ token ∈ keywords, token.kind? = some kind := by
    cases kind <;> cases hk <;> decide
  have hname : kind.name = keyword := by
    cases kind <;> cases hk <;> rfl
  have hspells : spells word token = true := by
    simp only [spells, htoken, hword, hname, decide_true]
  have hne : ∀ token ∈ keywords, token ≠ identifier := by decide
  rw [ofWord] at h
  cases hfind : keywords.find? (spells word) with
  | none => exact List.find?_eq_none.mp hfind token hmem hspells
  | some found =>
      rw [hfind] at h
      exact hne found (List.mem_of_find?_eq_some hfind) h

end Token

end Jstn
