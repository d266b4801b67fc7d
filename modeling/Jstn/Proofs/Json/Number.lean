import Jstn.Proofs.Json.Grammar

/-!
# What the number machine reads

The phases of a number read exactly the numbers of the grammar.  `Phase.Rest` is
what a phase still has to read, in terms of the parts of a number.  One byte
takes it to what the next phase has to read, in both directions (`rest_of_step`,
`step_of_rest`).

A number has no end of its own.  It is read in full if the byte after it does
not continue it (`Ends`).
-/

namespace Jstn

namespace Json

/-- Bytes that cannot continue a number before them. -/
def Ends (rest : List UInt8) : Prop :=
  ∀ b ∈ rest.head?,
    Byte.isDigit b = false ∧ b ≠ Byte.point ∧ Byte.isExponentLetter b = false

theorem ends_nil : Ends [] := fun _ h => nomatch h

/-- A blank, a comma or a closing bracket ends a number. -/
theorem ends_cons {b : UInt8} {rest : List UInt8}
    (h : Byte.isBlank b = true ∨ b = Byte.comma ∨ b = Byte.closeBracket ∨ b = Byte.closeBrace) :
    Ends (b :: rest) := by
  intro c hc
  obtain rfl : b = c := by simpa using hc
  rcases h with h | rfl | rfl | rfl
  · simp only [Byte.isBlank, Bool.or_eq_true, decide_eq_true_eq] at h
    rcases h with ((rfl | rfl) | rfl) | rfl <;> decide
  all_goals decide

theorem ends_blanks {w rest : List UInt8} (hw : Blanks w) (h : Ends rest) : Ends (w ++ rest) := by
  cases w with
  | nil => exact h
  | cons b w => exact ends_cons (Or.inl (hw b List.mem_cons_self))

theorem ends_append {xs : List UInt8} (h : Ends xs) (hne : xs ≠ []) (ys : List UInt8) :
    Ends (xs ++ ys) := by
  obtain ⟨b, xs, rfl⟩ := List.exists_cons_of_ne_nil hne
  exact h

/-- The byte after an item is a blank, a comma or the bracket that closes the array. -/
theorem ends_after_items {w : List UInt8} (hw : Blanks w) (items : List Item)
    (rest : List UInt8) : Ends (w ++ (moreItems items ++ Byte.closeBracket :: rest)) := by
  refine ends_blanks hw ?_
  cases items with
  | nil => exact ends_cons (Or.inr (Or.inr (Or.inl rfl)))
  | cons i items => exact ends_cons (Or.inr (Or.inl rfl))

/-- The byte after a member is a blank, a comma or the brace that closes the object. -/
theorem ends_after_members {w : List UInt8} (hw : Blanks w) (members : List Member)
    (rest : List UInt8) : Ends (w ++ (moreMembers members ++ Byte.closeBrace :: rest)) := by
  refine ends_blanks hw ?_
  cases members with
  | nil => exact ends_cons (Or.inr (Or.inr (Or.inr rfl)))
  | cons m members => exact ends_cons (Or.inr (Or.inl rfl))

namespace Number

theorem digit_ne_sign {d : UInt8} (h : Byte.isDigit d = true) :
    d ≠ Byte.plus ∧ d ≠ Byte.minus ∧ d ≠ Byte.point := by
  refine ⟨?_, ?_, ?_⟩ <;> (rintro rfl; revert h; decide)

theorem exponentLetter_not_digit {e : UInt8} (h : Byte.isExponentLetter e = true) :
    Byte.isDigit e = false ∧ e ≠ Byte.point := by
  simp only [Byte.isExponentLetter, Bool.or_eq_true, decide_eq_true_eq] at h
  rcases h with rfl | rfl <;> decide

namespace Phase

/-- The end of the text after or inside a number that is skipped. -/
def finish (phase : Phase) : Except Fault Unit :=
  if phase.isComplete then .ok () else .error .invalidNumber

/-- What a phase still has to read. -/
def Rest : Phase → List UInt8 → Prop
  | sign, xs => ∃ whole fraction exponent, xs = whole ++ (fraction ++ exponent) ∧
      WholePart whole ∧ FractionPart fraction ∧ ExponentPart exponent
  | zero, xs => ∃ fraction exponent, xs = fraction ++ exponent ∧
      FractionPart fraction ∧ ExponentPart exponent
  | whole, xs => ∃ ds fraction exponent, xs = ds ++ (fraction ++ exponent) ∧
      Digits ds ∧ FractionPart fraction ∧ ExponentPart exponent
  | point, xs => ∃ d ds exponent, xs = d :: (ds ++ exponent) ∧
      Byte.isDigit d = true ∧ Digits ds ∧ ExponentPart exponent
  | fraction, xs => ∃ ds exponent, xs = ds ++ exponent ∧ Digits ds ∧ ExponentPart exponent
  | exponent, xs => ∃ sign d ds, xs = sign ++ d :: ds ∧
      (sign = [] ∨ sign = [Byte.plus] ∨ sign = [Byte.minus]) ∧
      Byte.isDigit d = true ∧ Digits ds
  | exponentSign, xs => ∃ d ds, xs = d :: ds ∧ Byte.isDigit d = true ∧ Digits ds
  | exponentDigit, xs => Digits xs

theorem digits_nil : Digits [] := fun _ h => nomatch h

theorem digits_cons {d : UInt8} {ds : List UInt8} (h : Byte.isDigit d = true) (hs : Digits ds) :
    Digits (d :: ds) := List.forall_mem_cons.mpr ⟨h, hs⟩

theorem rest_nil {phase : Phase} (h : phase.isComplete = true) : phase.Rest [] := by
  cases phase with
  | zero => exact ⟨[], [], rfl, .none, .none⟩
  | whole => exact ⟨[], [], [], rfl, digits_nil, .none, .none⟩
  | fraction => exact ⟨[], [], rfl, digits_nil, .none⟩
  | exponentDigit => exact digits_nil
  | sign | point | exponent | exponentSign => cases h

/-- The parts after the whole part, read back from the byte after it. -/
theorem parts_of_afterWhole {b : UInt8} {q : Phase} {xs : List UInt8}
    (h : step.afterWhole b = .more q) (hq : q.Rest xs) :
    ∃ fraction exponent, b :: xs = fraction ++ exponent ∧
      FractionPart fraction ∧ ExponentPart exponent := by
  rw [step.afterWhole] at h
  split at h
  next hb =>
    cases h
    obtain ⟨d, ds, exponent, rfl, hd, hds, he⟩ := hq
    exact ⟨b :: d :: ds, exponent, rfl, hb ▸ .digits hd hds, he⟩
  next =>
    split at h
    next hb =>
      cases h
      obtain ⟨sign, d, ds, rfl, hs, hd, hds⟩ := hq
      exact ⟨[], b :: (sign ++ d :: ds), rfl, .none, .digits hb hs hd hds⟩
    next => cases h

/-- A byte and what the next phase reads are what the phase reads. -/
theorem rest_of_step {phase q : Phase} {b : UInt8} {xs : List UInt8}
    (h : phase.step b = .more q) (hq : q.Rest xs) : phase.Rest (b :: xs) := by
  cases phase with
  | sign =>
      rw [step] at h
      split at h
      next hb =>
        cases h
        obtain ⟨fraction, exponent, rfl, hf, he⟩ := hq
        exact ⟨[b], fraction, exponent, rfl, hb ▸ .zero, hf, he⟩
      next hb =>
        split at h
        next hd =>
          cases h
          obtain ⟨ds, fraction, exponent, rfl, hds, hf, he⟩ := hq
          exact ⟨b :: ds, fraction, exponent, rfl, .digits hd hb hds, hf, he⟩
        next => cases h
  | zero =>
      rw [step] at h
      split at h
      · cases h
      · exact parts_of_afterWhole h hq
  | whole =>
      rw [step] at h
      split at h
      next hd =>
        cases h
        obtain ⟨ds, fraction, exponent, rfl, hds, hf, he⟩ := hq
        exact ⟨b :: ds, fraction, exponent, rfl, digits_cons hd hds, hf, he⟩
      next =>
        obtain ⟨fraction, exponent, hx, hf, he⟩ := parts_of_afterWhole h hq
        exact ⟨[], fraction, exponent, hx, digits_nil, hf, he⟩
  | point =>
      rw [step] at h
      split at h
      next hd =>
        cases h
        obtain ⟨ds, exponent, rfl, hds, he⟩ := hq
        exact ⟨b, ds, exponent, rfl, hd, hds, he⟩
      next => cases h
  | fraction =>
      rw [step] at h
      split at h
      next hd =>
        cases h
        obtain ⟨ds, exponent, rfl, hds, he⟩ := hq
        exact ⟨b :: ds, exponent, rfl, digits_cons hd hds, he⟩
      next =>
        split at h
        next hb =>
          cases h
          obtain ⟨sign, d, ds, rfl, hs, hd, hds⟩ := hq
          exact ⟨[], b :: (sign ++ d :: ds), rfl, digits_nil, .digits hb hs hd hds⟩
        next => cases h
  | exponent =>
      rw [step] at h
      split at h
      next hb =>
        cases h
        obtain ⟨d, ds, rfl, hd, hds⟩ := hq
        refine ⟨[b], d, ds, rfl, Or.inr ?_, hd, hds⟩
        rcases hb with rfl | rfl
        · exact Or.inl rfl
        · exact Or.inr rfl
      next =>
        split at h
        next hd =>
          cases h
          exact ⟨[], b, xs, rfl, Or.inl rfl, hd, hq⟩
        next => cases h
  | exponentSign =>
      rw [step] at h
      split at h
      next hd =>
        cases h
        exact ⟨b, xs, rfl, hd, hq⟩
      next => cases h
  | exponentDigit =>
      rw [step] at h
      split at h
      next hd =>
        cases h
        exact digits_cons hd hq
      next => cases h

/-- A byte of the parts after the whole part. -/
theorem step_of_parts {b : UInt8} {xs fraction exponent : List UInt8}
    (h : b :: xs = fraction ++ exponent) (hf : FractionPart fraction) (he : ExponentPart exponent) :
    Byte.isDigit b = false ∧ ∃ q, step.afterWhole b = .more q ∧ q.Rest xs := by
  cases hf with
  | none =>
      cases he with
      | none => cases h
      | digits hletter hs hd hds =>
          obtain ⟨rfl, rfl⟩ := List.cons.inj h
          obtain ⟨hnd, hnp⟩ := exponentLetter_not_digit hletter
          exact ⟨hnd, exponent, by rw [step.afterWhole, if_neg hnp, if_pos hletter],
            _, _, _, rfl, hs, hd, hds⟩
  | digits hd hds =>
      obtain ⟨rfl, rfl⟩ := List.cons.inj h
      exact ⟨by decide, point, by rw [step.afterWhole, if_pos rfl], _, _, _, rfl, hd, hds, he⟩

/-- What a phase still has to read begins with a byte that it takes. -/
theorem step_of_rest {phase : Phase} {b : UInt8} {xs : List UInt8} (h : phase.Rest (b :: xs)) :
    ∃ q, phase.step b = .more q ∧ q.Rest xs := by
  cases phase with
  | sign =>
      obtain ⟨w, f, e, hx, hw, hf, he⟩ := h
      cases hw with
      | zero =>
          obtain ⟨rfl, rfl⟩ := List.cons.inj hx
          exact ⟨zero, rfl, f, e, rfl, hf, he⟩
      | digits hd hz hds =>
          obtain ⟨rfl, rfl⟩ := List.cons.inj hx
          exact ⟨whole, by rw [step, if_neg hz, if_pos hd], _, f, e, rfl, hds, hf, he⟩
  | zero =>
      obtain ⟨f, e, hx, hf, he⟩ := h
      obtain ⟨hnd, q, hq, hr⟩ := step_of_parts hx hf he
      exact ⟨q, by rw [step, if_neg (by simp [hnd]), hq], hr⟩
  | whole =>
      obtain ⟨ds, f, e, hx, hds, hf, he⟩ := h
      cases ds with
      | nil =>
          rw [List.nil_append] at hx
          obtain ⟨hnd, q, hq, hr⟩ := step_of_parts hx hf he
          exact ⟨q, by rw [step, if_neg (by simp [hnd]), hq], hr⟩
      | cons d ds =>
          obtain ⟨rfl, rfl⟩ := List.cons.inj hx
          obtain ⟨hd, hds⟩ := List.forall_mem_cons.mp hds
          exact ⟨whole, by rw [step, if_pos hd], ds, f, e, rfl, hds, hf, he⟩
  | point =>
      obtain ⟨d, ds, e, hx, hd, hds, he⟩ := h
      obtain ⟨rfl, rfl⟩ := List.cons.inj hx
      exact ⟨fraction, by rw [step, if_pos hd], ds, e, rfl, hds, he⟩
  | fraction =>
      obtain ⟨ds, e, hx, hds, he⟩ := h
      cases ds with
      | nil =>
          cases he with
          | none => cases hx
          | digits hletter hs hd hds =>
              obtain ⟨rfl, rfl⟩ := List.cons.inj hx
              obtain ⟨hnd, -⟩ := exponentLetter_not_digit hletter
              exact ⟨exponent, by rw [step, if_neg (by simp [hnd]), if_pos hletter],
                _, _, _, rfl, hs, hd, hds⟩
      | cons d ds =>
          obtain ⟨rfl, rfl⟩ := List.cons.inj hx
          obtain ⟨hd, hds⟩ := List.forall_mem_cons.mp hds
          exact ⟨fraction, by rw [step, if_pos hd], ds, e, rfl, hds, he⟩
  | exponent =>
      obtain ⟨sign, d, ds, hx, hs, hd, hds⟩ := h
      rcases hs with rfl | rfl | rfl
      · obtain ⟨rfl, rfl⟩ := List.cons.inj hx
        obtain ⟨hp, hm, -⟩ := digit_ne_sign hd
        exact ⟨exponentDigit, by rw [step, if_neg (by simp [hp, hm]), if_pos hd], hds⟩
      · obtain ⟨rfl, rfl⟩ := List.cons.inj hx
        exact ⟨exponentSign, rfl, d, ds, rfl, hd, hds⟩
      · obtain ⟨rfl, rfl⟩ := List.cons.inj hx
        exact ⟨exponentSign, rfl, d, ds, rfl, hd, hds⟩
  | exponentSign =>
      obtain ⟨d, ds, hx, hd, hds⟩ := h
      obtain ⟨rfl, rfl⟩ := List.cons.inj hx
      exact ⟨exponentDigit, by rw [step, if_pos hd], hds⟩
  | exponentDigit =>
      obtain ⟨hd, hds⟩ := List.forall_mem_cons.mp h
      exact ⟨exponentDigit, by rw [step, if_pos hd], hds⟩

theorem isComplete_of_rest {phase : Phase} (h : phase.Rest []) : phase.isComplete = true := by
  cases phase with
  | zero | whole | fraction | exponentDigit => rfl
  | sign =>
      obtain ⟨_, _, _, hx, hw, -⟩ := h
      cases hw <;> cases hx
  | point =>
      obtain ⟨_, _, _, hx, -⟩ := h
      cases hx
  | exponent =>
      obtain ⟨_, _, _, hx, -⟩ := h
      simp at hx
  | exponentSign =>
      obtain ⟨_, _, hx, -⟩ := h
      cases hx

/-- A complete number stops before a byte that does not continue it. -/
theorem stop_of_isComplete {phase : Phase} {b : UInt8} (h : phase.isComplete = true)
    (hd : Byte.isDigit b = false) (hp : b ≠ Byte.point)
    (he : Byte.isExponentLetter b = false) : phase.step b = .stop () := by
  cases phase with
  | zero | whole => simp [step, step.afterWhole, hd, hp, he]
  | fraction => simp [step, hd, he]
  | exponentDigit => simp [step, hd]
  | sign | point | exponent | exponentSign => cases h

theorem isComplete_of_stop {phase : Phase} {b : UInt8} (h : phase.step b = .stop ()) :
    phase.isComplete = true := by
  cases phase with
  | zero | whole | fraction | exponentDigit => rfl
  | sign | point | exponent | exponentSign =>
      rw [step] at h
      repeat' (split at h)
      all_goals cases h

theorem step_ne_done {phase : Phase} {b : UInt8} : phase.step b ≠ .done () := by
  intro h
  cases phase <;> simp only [step, step.afterWhole] at h <;> repeat' (split at h)
  all_goals cases h

/-! ## Whole numbers of the grammar -/

theorem drive_of_rest {phase : Phase} {xs rest : List UInt8} (p : Position)
    (h : phase.Rest xs) (hr : Ends rest) :
    drive step finish phase p (xs ++ rest) = .ok ((), ⟨p.afterAll xs, rest⟩) := by
  induction xs generalizing phase p with
  | nil =>
      have hc := isComplete_of_rest h
      cases rest with
      | nil => simp [drive, finish, hc, Position.afterAll]
      | cons b rest =>
          obtain ⟨hd, hp, he⟩ := hr b rfl
          simp [drive, stop_of_isComplete hc hd hp he, Position.afterAll]
  | cons b xs ih =>
      obtain ⟨q, hq, hx⟩ := step_of_rest h
      rw [List.cons_append, drive, hq]
      exact ih (p.after b) hx

theorem rest_of_drive {phase : Phase} {p : Position} {bytes : List UInt8} {c : Cursor}
    (h : drive step finish phase p bytes = .ok ((), c)) :
    ∃ xs, bytes = xs ++ c.rest ∧ phase.Rest xs := by
  induction bytes generalizing phase p with
  | nil =>
      rw [drive, finish] at h
      split at h
      next hf =>
        obtain ⟨-, rfl⟩ := Prod.mk.inj (Except.ok.inj h)
        split at hf
        next hc => exact ⟨[], rfl, rest_nil hc⟩
        next => cases hf
      · cases h
  | cons b bytes ih =>
      rw [drive] at h
      split at h
      next q hq =>
        obtain ⟨xs, rfl, hx⟩ := ih h
        exact ⟨b :: xs, rfl, rest_of_step hq hx⟩
      next hq => exact absurd hq step_ne_done
      next hq =>
        obtain ⟨-, rfl⟩ := Prod.mk.inj (Except.ok.inj h)
        exact ⟨[], rfl, rest_nil (isComplete_of_stop hq)⟩
      · cases h

end Phase

theorem written_of_rest {b : UInt8} {phase : Phase} {xs : List UInt8}
    (hb : Phase.ofFirst? b = some phase) (h : phase.Rest xs) : Written (b :: xs) := by
  rw [Phase.ofFirst?] at hb
  split at hb
  next hm =>
    cases hb
    obtain ⟨whole, fraction, exponent, rfl, hw, hf, he⟩ := h
    subst hm
    exact .parts (Or.inr rfl) hw hf he
  next =>
    split at hb
    next hz =>
      cases hb
      obtain ⟨fraction, exponent, rfl, hf, he⟩ := h
      subst hz
      exact .parts (Or.inl rfl) .zero hf he
    next hz =>
      split at hb
      next hd =>
        cases hb
        obtain ⟨ds, fraction, exponent, rfl, hds, hf, he⟩ := h
        exact .parts (Or.inl rfl) (.digits hd hz hds) hf he
      next => cases hb

theorem rest_of_written {bytes : List UInt8} (h : Written bytes) :
    ∃ b xs phase, bytes = b :: xs ∧ Phase.ofFirst? b = some phase ∧ phase.Rest xs := by
  cases h with
  | @parts sign whole fraction exponent hs hw hf he =>
      rcases hs with rfl | rfl
      · cases hw with
        | zero =>
            exact ⟨Byte.zero, fraction ++ exponent, .zero, rfl, rfl, fraction, exponent, rfl,
              hf, he⟩
        | digits hd hz hds =>
            have hm := (digit_ne_sign hd).2.1
            exact ⟨_, _, .whole, rfl, by rw [Phase.ofFirst?, if_neg hm, if_neg hz, if_pos hd],
              _, _, _, rfl, hds, hf, he⟩
      · exact ⟨Byte.minus, whole ++ (fraction ++ exponent), .sign, rfl, rfl,
          whole, fraction, exponent, rfl, hw, hf, he⟩

end Number

end Json

end Jstn
