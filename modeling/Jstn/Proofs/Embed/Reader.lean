import Jstn.Embed.Reader
import Jstn.Proofs.Json.Skip

/-!
# What readers take

A reader *takes* bytes if it gives the same for them at any place and before any rest
(`Takes`).  Blanks before them change nothing, since every reader begins by skipping
blanks (`Takes.of_blanks`).

A string is read from the literals that denote it, a null from the word (`takes_readString`,
`takes_readNull`), and from nothing else (`exists_literal_of_readString`,
`exists_null_of_readNull`).  A whole text may have blanks at its end (`readWhole_eq_ok_iff`).
-/

namespace Jstn

open Json (Blanks Byte.isBlank Byte.quote Byte.colon Cursor Literal.Denotes Literal.quoted Position)

namespace Embed

variable {α β : Type} {reader : Cursor → Outcome α} {w xs : List UInt8} {a : α}

/-! ## Taking bytes -/

/-- A reader gives `a` for the bytes `xs`, wherever they stand and whatever follows them. -/
def Takes (reader : Cursor → Outcome α) (xs : List UInt8) (a : α) : Prop :=
  ∀ p rest, reader ⟨p, xs ++ rest⟩ = .ok (a, ⟨p.afterAll xs, rest⟩)

theorem Takes.map (f : α → β) (h : Takes reader xs a) :
    Takes (fun c => (reader c).map fun r => (f r.1, r.2)) xs (f a) := by
  intro p rest
  simp only [h p rest, Except.map]

theorem map_eq_ok {r : Outcome α} {f : α × Cursor → β} {b : β} {c : Cursor}
    (h : (r.map fun p => (f p, p.2)) = .ok (b, c)) : ∃ a, r = .ok (a, c) ∧ f (a, c) = b := by
  cases r with
  | error failure => cases h
  | ok p =>
      cases h
      exact ⟨p.1, rfl, rfl⟩

/-- A reader that skips blanks at first. -/
def SkipsBlanks (reader : Cursor → Outcome α) : Prop := ∀ c, reader c.skipBlanks = reader c

theorem Takes.of_blanks {b : UInt8} (hskips : SkipsBlanks reader) (hw : Blanks w)
    (hb : Byte.isBlank b = false) (h : Takes reader (b :: xs) a) :
    Takes reader (w ++ b :: xs) a := by
  intro p rest
  rw [← hskips, List.append_assoc, List.cons_append, Cursor.skipBlanks_append_cons p hw hb,
    ← List.cons_append, h, Json.Position.afterAll_append]

/-! ## Strings, nulls and colons -/

theorem lift_eq_ok_iff {r : Except (Json.Fault × Position) (α × Cursor)} {c : Cursor} :
    lift r = .ok (a, c) ↔ r = .ok (a, c) := by
  cases r <;> simp [lift, Except.mapError]

theorem skipsBlanks_readString : SkipsBlanks readString := by
  intro c
  simp only [readString, Cursor.skipBlanks_skipBlanks]

theorem skipsBlanks_readNull (target : Target) : SkipsBlanks (readNull target) := by
  intro c
  simp only [readNull, Cursor.skipBlanks_skipBlanks]

/-- A literal is read as the text that it denotes, from the byte after its first quote on. -/
theorem lift_read_of_denotes {body : List UInt8} {s : String}
    (h : Literal.Denotes body (some s)) (p : Position) (rest : List UInt8) :
    lift (Json.Literal.read ⟨p.after Byte.quote, body ++ Byte.quote :: rest⟩) =
      .ok (s, ⟨p.afterAll (Literal.quoted body), rest⟩) := by
  have hposition : p.afterAll (Literal.quoted body) =
      ((p.after Byte.quote).afterAll body).after Byte.quote := by
    rw [Literal.quoted, Json.Position.afterAll, List.foldl_cons, List.foldl_append]
    rfl
  rw [Json.Literal.read_of_denotes_some h, hposition]
  rfl

theorem takes_readString {body : List UInt8} {s : String} (h : Literal.Denotes body (some s)) :
    Takes readString (Literal.quoted body) s := by
  intro p rest
  rw [← lift_read_of_denotes h, Literal.quoted, List.cons_append, List.append_assoc,
    List.singleton_append]
  rfl

theorem takes_readNull (target : Target) :
    Takes (readNull target) (0x6E :: Json.Word.null) () := fun _ _ => rfl

theorem takes_readColon : Takes readColon [Byte.colon] () := fun _ _ => rfl

theorem rest_advance {c : Cursor} {b : UInt8} {bytes : List UInt8} (h : c.rest = b :: bytes) :
    c.advance = ⟨c.position.after b, bytes⟩ := by
  match c, h with
  | ⟨_, _ :: _⟩, rfl => rfl

/-- What is read as a string is a literal that denotes it, with blanks before it. -/
theorem exists_literal_of_readString {c c' : Cursor} {s : String}
    (h : readString c = .ok (s, c')) :
    ∃ w body, Blanks w ∧ Literal.Denotes body (some s) ∧
      c.rest = w ++ (Literal.quoted body ++ c'.rest) := by
  obtain ⟨w, hw, hrest, -⟩ := Cursor.exists_blanks_of_skipBlanks c
  unfold readString at h
  dsimp only at h
  split at h
  · cases h
  next b bytes hb =>
    split at h
    next hquote =>
      rw [rest_advance hb] at h
      have hread := lift_eq_ok_iff.mp h
      obtain ⟨body, rfl, hbody⟩ := Json.Literal.denotes_of_read hread
      refine ⟨w, body, hw, hbody, ?_⟩
      rw [hrest, hb, hquote, Literal.quoted, List.cons_append, List.append_assoc,
        List.singleton_append]
    · cases h

/-- What is read as a null is the word, with blanks before it. -/
theorem exists_null_of_readNull {target : Target} {c c' : Cursor}
    (h : readNull target c = .ok ((), c')) :
    ∃ w, Blanks w ∧ c.rest = w ++ (0x6E :: Json.Word.null ++ c'.rest) := by
  obtain ⟨w, hw, hrest, -⟩ := Cursor.exists_blanks_of_skipBlanks c
  unfold readNull at h
  dsimp only at h
  split at h
  · cases h
  next b bytes hb =>
    split at h
    next hword =>
      rw [rest_advance hb] at h
      have hdue : bytes = Json.Word.null ++ c'.rest :=
        Json.Word.due_of_drive (lift_eq_ok_iff.mp h)
      exact ⟨w, hw, by rw [hrest, hb, hword, hdue, List.cons_append]⟩
    · cases h

/-! ## Whole texts -/

/-- After what a reader reads of a whole text, only blanks come. -/
theorem readWhole_eq_ok_iff {text : List UInt8} :
    readWhole reader text = .ok a ↔ ∃ c, reader (.ofBytes text) = .ok (a, c) ∧ Blanks c.rest := by
  unfold readWhole
  cases hread : reader (.ofBytes text) with
  | error failure => simp
  | ok r =>
      obtain ⟨a', c⟩ := r
      have hblanks := c.blanks_iff_skipBlanks
      cases hskip : c.skipBlanks.rest with
      | nil => simp [hblanks, hskip]
      | cons b bytes => simp [hblanks, hskip]

end Embed

end Jstn
