import Jstn.Document.Check
import Jstn.Proofs.Json.Encoding
import Jstn.Proofs.Json.SkipCompleteness

/-!
# Values that a walk skips

A walk skips a value the way `Skip` does, watches its bytes if they have to be
UTF-8, and judges it at its end (`run_skip`).  The watch does not break on bytes
that are UTF-8 (`feedAll_sound`), and the text of a value on which it has not broken is
UTF-8 (`valid_of_feedAll`).  The first byte of a value tells its kind
(`kindOfFirst_text`).
-/

namespace Jstn

open Json (Cursor Position Skip Value Watch)

/-! ## Watching -/

/-- Watches bytes from a position on. -/
def Json.Watch.feedAll (w : Watch) (p : Position) : List UInt8 → Watch
  | [] => w
  | b :: bytes => (w.feed p b).feedAll (p.after b) bytes

/-- The watch stays sound on bytes that decode. -/
theorem Json.Watch.feedAll_of_decodeFrom {s : Utf8.State} {sound read : Nat} {bytes : List UInt8}
    {cs : List Char} (h : Utf8.decodeFrom s sound read bytes = .ok cs) (lead p : Position) :
    ∃ lead', (Watch.sound s lead).feedAll p bytes = .sound .boundary lead' := by
  induction bytes generalizing s sound read cs lead p with
  | nil =>
      rw [Utf8.decodeFrom] at h
      split at h
      next hs => exact ⟨lead, by rw [hs]; rfl⟩
      next => cases h
  | cons b bytes ih =>
      rw [Utf8.decodeFrom] at h
      rw [feedAll, feed]
      cases hstep : Utf8.step s b with
      | char c =>
          simp only [hstep] at h ⊢
          split at h
          next cs' hcs => exact ih hcs _ _
          next => cases h
      | more s' =>
          simp only [hstep] at h ⊢
          exact ih h _ _
      | bad =>
          rw [hstep] at h
          cases h

/-- The watch stays sound on UTF-8. -/
theorem Json.Watch.feedAll_sound {bytes : List UInt8} (h : Utf8.Valid bytes)
    (lead p : Position) :
    ∃ lead', (Watch.sound .boundary lead).feedAll p bytes = .sound .boundary lead' := by
  obtain ⟨cs, hcs⟩ := Utf8.valid_iff_decode.mp h
  exact feedAll_of_decodeFrom hcs lead p

theorem Json.Watch.feedAll_broken (q p : Position) (bytes : List UInt8) :
    (Watch.broken q).feedAll p bytes = .broken q := by
  induction bytes generalizing p with
  | nil => rfl
  | cons b bytes ih => exact ih (p.after b)

/-- A sound watch that stays sound has taken its first byte. -/
theorem Json.Watch.sound_of_feedAll {s s' : Utf8.State} {lead lead' p : Position} {b : UInt8}
    {bytes : List UInt8} (h : (Watch.sound s lead).feedAll p (b :: bytes) = .sound s' lead') :
    ∃ s₁ lead₁, ((∃ c, Utf8.step s b = .char c ∧ s₁ = .boundary) ∨ Utf8.step s b = .more s₁) ∧
      (Watch.sound s₁ lead₁).feedAll (p.after b) bytes = .sound s' lead' := by
  rw [feedAll, feed] at h
  cases hstep : Utf8.step s b with
  | char c =>
      simp only [hstep] at h
      exact ⟨.boundary, _, Or.inl ⟨c, rfl, rfl⟩, h⟩
  | more s₁ =>
      simp only [hstep] at h
      exact ⟨s₁, _, Or.inr rfl, h⟩
  | bad =>
      simp only [hstep, feedAll_broken] at h
      cases h

/-- Bytes that have not broken the watch are UTF-8 if the last of them is ASCII.  The bytes
`pre` are those of the character in which the watch began. -/
theorem Json.Watch.valid_append_of_feedAll {s s' : Utf8.State} {pre bytes : List UInt8}
    {b : UInt8} {lead lead' p : Position} (hp : Utf8.Pending s pre) (hb : b.toNat < 0x80)
    (h : (Watch.sound s lead).feedAll p (bytes ++ [b]) = .sound s' lead') :
    Utf8.Valid (pre ++ (bytes ++ [b])) := by
  induction bytes generalizing s pre lead p with
  | nil =>
      obtain ⟨s₁, lead₁, hstep, -⟩ := sound_of_feedAll h
      refine Utf8.valid_of_step_ascii hp hb fun hbad => ?_
      rw [hbad] at hstep
      rcases hstep with ⟨c, hstep, -⟩ | hstep <;> cases hstep
  | cons a bytes ih =>
      obtain ⟨s₁, lead₁, ⟨c, hstep, rfl⟩ | hstep, h⟩ := sound_of_feedAll h
      · have hrest : Utf8.Valid ([] ++ (bytes ++ [b])) := ih Utf8.pending_boundary h
        have hchar := Utf8.valid_encodeChar c
        rw [Utf8.pending_char hp hstep] at hchar
        have hall := hchar.append hrest
        simpa using hall
      · have hall := ih (Utf8.pending_more hp hstep) h
        simpa using hall

/-- The text of a value on which the watch has not broken is UTF-8. -/
theorem Json.Watch.valid_of_feedAll {v : Value} {x : List UInt8} {s : Utf8.State}
    {lead lead' p : Position} (hx : Json.Text v x)
    (h : (Watch.sound .boundary lead).feedAll p x = .sound s lead') : Utf8.Valid x := by
  obtain ⟨xs, b, rfl, hb⟩ := Json.exists_last_of_text hx
  exact valid_append_of_feedAll Utf8.pending_boundary hb h

namespace Walk

/-! ## Skipping and judging -/

/-- The purpose after bytes of the value. -/
def Purpose.fedAll (p : Position) (bytes : List UInt8) : Purpose → Purpose
  | .scalar kind optional first watch => .scalar kind optional first (watch.feedAll p bytes)
  | purpose => purpose

theorem fedAll_nil (purpose : Purpose) (p : Position) : purpose.fedAll p [] = purpose := by
  cases purpose <;> rfl

theorem fedAll_cons (purpose : Purpose) (p : Position) (b : UInt8) (bytes : List UInt8) :
    (stepSkip.fed p b purpose).fedAll (p.after b) bytes = purpose.fedAll p (b :: bytes) := by
  cases purpose <;> rfl

/-- What comes of a skipped value at its end. -/
def settle (mode : Mode) (outer : List Frame) (purpose : Purpose) (c : Cursor) :
    Except Rejection Unit :=
  match judge outer purpose with
  | .error (fault, position) => .error (.malformed fault position)
  | .ok (some breach) => .error (breach.reject c)
  | .ok none => run mode ⟨outer, .ended⟩ c.position c.rest

/-- A value is skipped up to its end and judged there. -/
theorem run_skip {mode : Mode} {outer : List Frame} {purpose : Purpose} {k : Skip}
    {p q : Position} {x rest : List UInt8}
    (h : k.runFrom p (x ++ rest) = .ok ⟨q, rest⟩) :
    run mode ⟨outer, .skip purpose k⟩ p (x ++ rest)
      = settle mode outer (purpose.fedAll p x) ⟨q, rest⟩ := by
  induction x generalizing purpose k p with
  | nil =>
      rw [List.nil_append] at h
      rw [List.nil_append, fedAll_nil, settle]
      cases rest with
      | nil =>
          rw [Skip.runFrom_nil] at h
          split at h
          next hk =>
            cases h
            cases hjudge : judge outer purpose with
            | error e => simp only [run, finish, hk, hjudge]
            | ok found => cases found <;> simp only [run, finish, hk, hjudge]
          next => cases h
      | cons b rest =>
          rw [Skip.runFrom_cons] at h
          split at h
          next k' hk =>
            have hl := Skip.length_runFrom h
            exact absurd hl (Nat.not_succ_le_self _)
          next hk =>
            have hl := congrArg (fun c => c.rest.length) (Except.ok.inj h)
            simp at hl
          next hk =>
            cases h
            simp only [run, step, stepSkip, hk, endSkip]
            cases judge outer purpose with
            | error e => rfl
            | ok found => cases found <;> rfl
          next => cases h
  | cons b x ih =>
      rw [List.cons_append, Skip.runFrom_cons] at h
      rw [List.cons_append, run, ← fedAll_cons]
      split at h
      next k' hk =>
        simp only [step, stepSkip, hk]
        exact ih h
      next hk =>
        obtain ⟨rfl, hx⟩ := Cursor.mk.inj (Except.ok.inj h)
        obtain rfl : x = [] := by simpa using hx
        simp only [step, stepSkip, hk, endSkip, fedAll_nil, settle, List.nil_append]
        cases judge outer (stepSkip.fed p b purpose) with
        | error e => rfl
        | ok found => cases found <;> rfl
      next hk =>
        have hl := congrArg (fun c => c.rest.length) (Except.ok.inj h)
        simp at hl
        omega
      next => cases h

/-- A walk that is accepted gets to the end of a value that it skips. -/
theorem exists_skip_of_run {mode : Mode} {outer : List Frame} {purpose : Purpose} {k : Skip}
    {p : Position} {bytes : List UInt8}
    (h : run mode ⟨outer, .skip purpose k⟩ p bytes = .ok ()) :
    ∃ c, k.runFrom p bytes = .ok c := by
  induction bytes generalizing purpose k p with
  | nil =>
      rw [run, finish] at h
      cases hk : k.finish with
      | ok u => exact ⟨⟨p, []⟩, by rw [Skip.runFrom_nil, hk]⟩
      | error fault =>
          simp only [hk] at h
          cases h
  | cons b bytes ih =>
      rw [Skip.runFrom_cons]
      cases hk : k.step b with
      | more k' =>
          simp only [run, step, stepSkip, hk] at h
          exact ih h
      | done _ | stop _ => exact ⟨_, rfl⟩
      | fail fault side =>
          simp only [run, step, stepSkip, hk] at h
          cases h

/-! ## The kind of a value -/

theorem kindOfFirst_number {b : UInt8} {phase : Json.Number.Phase}
    (h : Json.Number.Phase.ofFirst? b = some phase) : judge.kindOfFirst b = .number := by
  have hne : ∀ c, Json.Number.Phase.ofFirst? c = none → b ≠ c := by
    rintro c hc rfl
    rw [hc] at h
    cases h
  have ho : Json.Container.ofOpening? b = none := by
    rw [Json.Container.ofOpening?, if_neg (hne _ (by decide)), if_neg (hne _ (by decide))]
  have hword : ¬(b = 0x74 ∨ b = 0x66) := by
    rintro (hb | hb)
    · exact hne _ (by decide) hb
    · exact hne _ (by decide) hb
  rw [judge.kindOfFirst, if_neg (hne _ (by decide)), if_neg (hne _ (by decide)), if_neg hword, ho]

/-- The first byte of a text tells the kind of its value. -/
theorem kindOfFirst_text {v : Value} {b : UInt8} {x : List UInt8}
    (h : Json.Text v (b :: x)) : judge.kindOfFirst b = v.kind := by
  generalize hx : b :: x = bytes at h
  cases h with
  | number hw =>
      obtain ⟨b', x', phase, rfl, hb, -⟩ := Json.Number.rest_of_written hw
      obtain ⟨rfl, -⟩ := List.cons.inj hx
      exact kindOfFirst_number hb
  | null | true | false | string _ | emptyArray _ | array _ _ | emptyObject _ | object _ _ _ =>
      obtain ⟨rfl, -⟩ := List.cons.inj hx
      rfl

end Walk

end Jstn
