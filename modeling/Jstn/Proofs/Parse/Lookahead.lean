import Jstn.Parse.Descent
import Jstn.Proofs.Lexeme.Boundaries
import Jstn.Proofs.Parse.Grammar

/-!
# Looking ahead by one lexeme

What readers do with the text by themselves: they scan, skip what means nothing, and put back
one lexeme.

`Ends` is about the whole outcome of a reader.  It comes to an end, and it either moves on or
refuses the text.  So a reader that ends never puts back a second lexeme, and neither does any
that it calls.  Readers are put together by `Ends.bind`.

The lexemes that are left (`Place.unread`) begin with the one that has been put back.  The end
of the text may be put back as well, and is no lexeme.
-/

namespace Jstn

/-- A scan takes the first of the lexemes that are left. -/
theorem Scanner.lexemes_of_scan {s next : Scanner} {found : Option Lexeme}
    (h : s.scan = (found, next)) : s.lexemes = found.toList ++ next.lexemes := by
  obtain ⟨cs, offset⟩ := s
  cases cs with
  | nil =>
      cases h
      rfl
  | cons c cs =>
      rw [scan_cons] at h
      cases h
      exact lexemes_eq c cs offset

/-- A scan that finds nothing leaves nothing. -/
theorem Scanner.lexemes_of_scan_none {s next : Scanner} (h : s.scan = (none, next)) :
    next.lexemes = [] := by
  obtain ⟨cs, offset⟩ := s
  cases cs with
  | nil =>
      cases h
      exact lexemes_nil offset
  | cons c cs =>
      rw [scan_cons] at h
      cases h

namespace Parse

namespace Descent

variable {α β : Type} {p p₁ p' : Place} {x : Reads α} {breaksCount : Bool}

/-! ## What readers come to -/

/-- The reader comes to an end at `p`.  Either it moves on, and what comes of it is as `post`
says, or it refuses the text with an error that is as `refused` says.  It has rounds enough and
never puts back a second lexeme. -/
inductive Ends (x : Reads α) (p : Place) (post : α → Place → Prop) (refused : ParseError → Prop) :
    Prop
  | done {a : α} {p' : Place} : (x p).run = some (.ok (a, p')) → post a p' → Ends x p post refused
  | refused {e : ParseError} :
      (x p).run = some (.error (.refused e)) → refused e → Ends x p post refused

variable {post post' mid : α → Place → Prop} {post₂ : β → Place → Prop}
  {refused refused' : ParseError → Prop}

theorem ends_pure {a : α} (h : post a p) : Ends (pure a) p post refused := .done rfl h

theorem ends_refuse {e : ParseError} (h : refused e) :
    Ends (refuse e : Reads α) p post refused := .refused rfl h

theorem Ends.imp (h : Ends x p post refused) (hpost : ∀ a p', post a p' → post' a p')
    (hrefused : ∀ e, refused e → refused' e) : Ends x p post' refused' := by
  cases h with
  | done hx ha => exact .done hx (hpost _ _ ha)
  | refused hx he => exact .refused hx (hrefused _ he)

theorem Ends.bind {f : α → Reads β} (h : Ends x p mid refused)
    (hf : ∀ a p₁, mid a p₁ → Ends (f a) p₁ post₂ refused) : Ends (x >>= f) p post₂ refused := by
  have hbind : ((x >>= f) p).run = (x p).run.bind fun
      | .ok (a, p₁) => (f a p₁).run
      | .error e => some (.error e) := by
    show ExceptT.run ((x p) >>= fun r => f r.1 r.2) = _
    rw [ExceptT.run_bind]
    congr 1
    funext r
    cases r <;> rfl
  cases h with
  | @done a p₁ hx ha =>
      rw [hx] at hbind
      cases hf a p₁ ha with
      | done hfa hb => exact .done (hbind.trans hfa) hb
      | refused hfa he => exact .refused (hbind.trans hfa) he
  | refused hx he =>
      rw [hx] at hbind
      exact .refused hbind he

/-! ## Lexemes -/

namespace Place

/-- The lexemes that are left, what has been put back first. -/
def unread (p : Place) : List Lexeme := p.slot.join.toList ++ p.scanner.lexemes

/-- The end of the text is put back only where the text ends. -/
def Sound (p : Place) : Prop := p.slot = some none → p.scanner.lexemes = []

theorem sound_of_slot (h : p.slot = none) : p.Sound := by
  intro hslot
  rw [h] at hslot
  cases hslot

end Place

/-- From `p` to `p'` one thing has been found, and there is room to put it back. -/
structure Scanned (p : Place) (found : Found) (p' : Place) : Prop where
  unread_eq : p.unread = found.toList ++ p'.unread
  slot_eq : p'.slot = none
  depth_eq : p'.depth = p.depth
  atEnd : p.Sound → found = none → p'.unread = []

theorem scanned_of_scan {found : Found} (h : p.scan = (found, p')) : Scanned p found p' := by
  obtain ⟨scanner, slot, depth⟩ := p
  cases slot with
  | some found' =>
      cases h
      refine ⟨rfl, rfl, rfl, fun hsound hfound => ?_⟩
      cases hfound
      exact hsound rfl
  | none =>
      obtain ⟨hfound, rfl⟩ := Prod.mk.inj h
      have hscan : scanner.scan = (found, scanner.scan.2) := Prod.ext hfound rfl
      refine ⟨Scanner.lexemes_of_scan hscan, rfl, rfl, fun _ hend => ?_⟩
      rw [hend] at hscan
      exact Scanner.lexemes_of_scan_none hscan

/-- A lexeme that is not looked at. -/
def Skipped (breaksCount : Bool) (l : Lexeme) : Prop :=
  ∃ token, Is token l ∧ token.isTrivia breaksCount = true

/-- From `p` to `p'` one thing has been found that means something, and what stood before it
has been skipped. -/
structure Finds (breaksCount : Bool) (p : Place) (found : Found) (p' : Place) : Prop where
  exists_skipped : ∃ skipped, (∀ l ∈ skipped, Skipped breaksCount l) ∧
    p.unread = skipped ++ (found.toList ++ p'.unread)
  significant : ∀ l, found = some l → ¬Skipped breaksCount l
  slot_eq : p'.slot = none
  depth_eq : p'.depth = p.depth
  atEnd : p.Sound → found = none → p'.unread = []

/-- What a scan has found is what is looked for, if it means something. -/
theorem Scanned.finds {found : Found} (h : Scanned p found p')
    (hsignificant : ∀ l, found = some l → ¬Skipped breaksCount l) :
    Finds breaksCount p found p' :=
  ⟨⟨[], nofun, h.unread_eq⟩, hsignificant, h.slot_eq, h.depth_eq, h.atEnd⟩

/-- What is found after a lexeme that is skipped is found before it as well. -/
theorem Scanned.skip {l : Lexeme} {found : Found} (h : Scanned p (some l) p₁)
    (hl : Skipped breaksCount l) (h' : Finds breaksCount p₁ found p') :
    Finds breaksCount p found p' := by
  obtain ⟨skipped, hskipped, hunread⟩ := h'.exists_skipped
  refine ⟨⟨l :: skipped, List.forall_mem_cons.mpr ⟨hl, hskipped⟩, ?_⟩, h'.significant,
    h'.slot_eq, h'.depth_eq.trans h.depth_eq, fun _ => h'.atEnd (Place.sound_of_slot h.slot_eq)⟩
  rw [h.unread_eq, hunread]
  rfl

theorem Place.finds (breaksCount : Bool) (p : Place) :
    Finds breaksCount p (p.scanSignificant breaksCount).1 (p.scanSignificant breaksCount).2 := by
  fun_induction Place.scanSignificant breaksCount p with
  | case1 p token text span p₁ hscan _ htrivia ih =>
      exact (scanned_of_scan hscan).skip ⟨token, rfl, htrivia⟩ ih
  | case2 p token text span p₁ hscan _ htrivia =>
      refine (scanned_of_scan hscan).finds fun l hl ⟨token', htoken, htrivia'⟩ => htrivia ?_
      cases hl
      cases htoken
      exact htrivia'
  | case3 p found p₁ hillegal hscan =>
      refine (scanned_of_scan hscan).finds fun l hl ⟨token, htoken, _⟩ => ?_
      cases l with
      | token token' text span => exact hillegal token' text span hl
      | illegal char span => cases htoken

theorem ends_scanSignificant (breaksCount : Bool) (p : Place) (refused : ParseError → Prop) :
    Ends (scanSignificant breaksCount) p (Finds breaksCount p) refused :=
  .done rfl (p.finds breaksCount)

theorem ends_unscan (found : Found) (h : p.slot = none) (refused : ParseError → Prop) :
    Ends (unscan found) p (fun _ p' => p' = { p with slot := some found }) refused := by
  obtain ⟨scanner, slot, depth⟩ := p
  cases h
  exact .done rfl rfl

theorem Finds.suffix {found : Found} (h : Finds breaksCount p found p₁) :
    found.toList ++ p₁.unread <:+ p.unread := by
  obtain ⟨skipped, -, hunread⟩ := h.exists_skipped
  exact ⟨skipped, hunread.symm⟩

end Descent

end Parse

end Jstn
