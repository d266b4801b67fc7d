import Jstn.Proofs.Document.RootEnd
import Jstn.Proofs.Document.Texts
import Mathlib.Data.List.DropRight

/-!
# What comes before trailing data

A walk that finds trailing data at a byte has read a document that it accepts: before the byte
it can end (`Walk.finish_of_trailing`), and the steps up to there are those of the walk over what
comes before (`Walk.exists_accepted_of_trailing`).

A walk that is asked for the end of the text does something else than one that peeks at a byte
after the value.  Both end a number that is complete, but only the second would end a word of
which nothing is due.  No step leaves such a word behind (`Json.Skip.live_of_step`), so the
difference does not show.
-/

namespace Jstn

open Json (Byte.isBlank Byte.lineFeed Position Skip)

/-! ## Skips that stop -/

namespace Json

namespace Skip

/-- The skip is not after a word of which nothing is due. -/
def Live (k : Skip) : Prop := k.point ≠ .word []

/-- A reply that does not stop and leaves a live skip. -/
inductive Steady : Reply Skip Unit → Prop
  | more {k : Skip} : k.Live → Steady (.more k)
  | done : Steady (.done ())
  | fail {fault : Fault} {side : Side} : Steady (.fail fault side)

variable {b : UInt8}

theorem steady_closeOn (outer : List Container) : Steady (closeOn outer) := by
  cases outer with
  | nil => exact .done
  | cons c outer => exact .more nofun

theorem steady_stepValue (outer : List Container) (b : UInt8) : Steady (stepValue outer b) := by
  rw [stepValue]
  split
  · exact .more nofun
  · split
    · exact .more nofun
    · split
      next due _ _ hw =>
        refine .more fun h => ?_
        cases h
        rw [Word.ofFirst?] at hw
        repeat' (split at hw)
        all_goals cases hw
      · exact .more (by simp [Live])
      · exact .more (by simp [Live])
      · exact .fail

theorem steady_stepKey (outer : List Container) (b : UInt8) : Steady (stepKey outer b) := by
  rw [stepKey]
  split
  · exact .more nofun
  · split
    · exact .more nofun
    · exact .fail

theorem steady_stepFirst (outer : List Container) (c : Container) (b : UInt8) :
    Steady (stepFirst outer c b) := by
  unfold stepFirst
  split
  · exact .more nofun
  · split
    · exact steady_closeOn outer
    · cases c with
      | array => exact steady_stepValue _ b
      | object => exact steady_stepKey _ b

theorem steady_stepAfter (outer : List Container) (c : Container) (b : UInt8) :
    Steady (stepAfter outer c b) := by
  unfold stepAfter
  split
  · exact .more nofun
  · split
    · exact steady_closeOn outer
    · split
      · cases c with
        | array => exact .more nofun
        | object => exact .more nofun
      · exact .fail

theorem stepEnded_cases (outer : List Container) (b : UInt8) :
    Steady (stepEnded outer b) ∨ stepEnded outer b = .stop () ∧ outer = [] := by
  cases outer with
  | nil => exact Or.inr ⟨rfl, rfl⟩
  | cons c outer => exact Or.inl (steady_stepAfter outer c b)

/-- A skip stops only after a word or a number that is not inside a container. -/
theorem step_cases (k : Skip) (b : UInt8) :
    Steady (k.step b) ∨ k.step b = .stop () ∧ k.outer = [] ∧
      (k.point = .word [] ∨ ∃ phase, k.point = .number phase ∧ phase.isComplete = true) := by
  obtain ⟨outer, point⟩ := k
  cases point with
  | value => exact Or.inl (steady_stepValue outer b)
  | word due =>
      match due with
      | [] => exact (stepEnded_cases outer b).imp_right fun h => ⟨h.1, h.2, Or.inl rfl⟩
      | [d] =>
          by_cases hb : b = d
          · simp only [step, Word.step, if_pos hb]
            exact Or.inl (steady_closeOn outer)
          · simp only [step, Word.step, if_neg hb]
            exact Or.inl .fail
      | d :: e :: due =>
          by_cases hb : b = d
          · simp only [step, Word.step, if_pos hb]
            exact Or.inl (.more (by simp [Live]))
          · simp only [step, Word.step, if_neg hb]
            exact Or.inl .fail
  | number phase =>
      simp only [step]
      cases hp : phase.step b with
      | more phase' => exact Or.inl (.more (by simp [Live]))
      | done => exact Or.inl (steady_closeOn outer)
      | stop =>
          exact (stepEnded_cases outer b).imp_right fun h =>
            ⟨h.1, h.2, Or.inr ⟨phase, rfl, Number.Phase.isComplete_of_stop hp⟩⟩
      | fail => exact Or.inl .fail
  | string t =>
      simp only [step]
      cases ht : t.step b with
      | more t' => exact Or.inl (.more (by simp [Live]))
      | done => exact Or.inl (steady_closeOn outer)
      | stop => exact absurd ht Literal.Skip.step_ne_stop
      | fail => exact Or.inl .fail
  | first c => exact Or.inl (steady_stepFirst outer c b)
  | after c => exact Or.inl (steady_stepAfter outer c b)
  | key => exact Or.inl (steady_stepKey outer b)
  | keyText t =>
      simp only [step]
      cases t.step b with
      | more _ | done _ | stop _ => exact Or.inl (.more (by simp [Live]))
      | fail => exact Or.inl .fail
  | colon =>
      simp only [step]
      split
      · exact Or.inl (.more (by simp [Live]))
      · split
        · exact Or.inl (.more (by simp [Live]))
        · exact Or.inl .fail

theorem live_of_step {k k' : Skip} (h : k.step b = .more k') : k'.Live := by
  rcases step_cases k b with hk | ⟨hk, -⟩
  · rw [h] at hk
    cases hk with
    | more hk => exact hk
  · rw [h] at hk
    cases hk

/-- Where a skip stops before a byte, the text may end. -/
theorem finish_of_stop {k : Skip} (h : k.step b = .stop ()) (hk : k.Live) :
    k.finish = .ok () := by
  rcases step_cases k b with hs | ⟨-, houter, hword | ⟨phase, hphase, hcomplete⟩⟩
  · rw [h] at hs
    cases hs
  · exact absurd hword hk
  · rw [finish, hphase]
    simp only [hcomplete, if_true, houter]
    rfl

end Skip

end Json

/-! ## Walks that find trailing data -/

namespace Walk

variable {mode : Mode} {s s' : State} {p : Position} {b : UInt8}

/-- The skip of the walk is live. -/
def Live (s : State) : Prop := ∀ k ∈ erase s, k.Live

theorem live_of_step (h : step mode s p b = .more s') : Live s' := by
  intro k' hk'
  have hf := follows_step h
  rw [Option.mem_def.mp hk'] at hf
  cases hs : erase s with
  | none =>
      rw [hs] at hf
      exact hf.elim
  | some k =>
      rw [hs] at hf
      exact Skip.live_of_step hf

/-- Where a walk finds trailing data the text may end. -/
theorem finish_of_trailing (h : step mode s p b = .trailing) (hs : Live s) :
    finish s p = .ok () := by
  have hfinish : ∀ k ∈ erase s, k.finish = .ok () := fun k hk =>
    Skip.finish_of_stop ((trails_of_step h).2 k hk) (hs k hk)
  obtain ⟨outer, task⟩ := s
  cases task with
  | ended =>
      obtain ⟨rfl, -⟩ := stepEnded_trailing h
      rfl
  | skip purpose k =>
      obtain ⟨rfl, -, hstop⟩ := stepSkip_trailing h
      have hk : k.finish = .ok () := by
        have hk := hfinish _ rfl
        rwa [containers, List.map_nil, List.append_nil] at hk
      have hjudge : judge [] purpose = .ok none := by
        simp only [step, stepSkip, hstop, endSkip] at h
        split at h
        · cases h
        · cases h
        · assumption
      simp only [finish, hk, hjudge]
      rfl
  | number node t =>
      simp only [step] at h
      split at h <;> cases h
  | value _ | word _ _ _ | string _ _ | firstItem _ | nextItem _ _ | firstKey _ | nextKey _ _
  | key _ _ _ | colon _ _ _ _ => cases hfinish _ rfl

/-- A walk that finds trailing data accepts what comes before the byte that shows it. -/
theorem exists_accepted_of_trailing {q : Position} {bytes : List UInt8} (hs : Live s)
    (h : run mode s p bytes = .error (.trailingData q)) :
    ∃ before b rest, bytes = before ++ b :: rest ∧ Byte.isBlank b = false ∧
      run mode s p before = .ok () ∧ q = (p.afterAll before).after b := by
  induction bytes generalizing s p with
  | nil =>
      have hreads : ReadsRoot (run mode s p []) := h ▸ .trails
      cases (finish_of_readsRoot hreads).symm.trans h
  | cons b bytes ih =>
      rw [run] at h
      cases hstep : step mode s p b with
      | more s' =>
          rw [hstep] at h
          obtain ⟨before, b', rest, rfl, hb, hrun, rfl⟩ := ih (live_of_step hstep) h
          refine ⟨b :: before, b', rest, rfl, hb, ?_, rfl⟩
          rw [run, hstep]
          exact hrun
      | trailing =>
          rw [hstep] at h
          cases h
          exact ⟨[], b, bytes, rfl, (trails_of_step hstep).1, finish_of_trailing hstep hs, rfl⟩
      | fault _ _ | breach _ _ =>
          rw [hstep] at h
          cases h

end Walk

/-! ## Positions -/

/-- The position after bytes counts their line feeds, and the bytes after the last of them. -/
theorem Json.Position.afterAll_start (bytes : List UInt8) :
    Position.start.afterAll bytes = ⟨1 + bytes.count Byte.lineFeed,
      (bytes.rtakeWhile (· ≠ Byte.lineFeed)).length⟩ := by
  induction bytes using List.reverseRecOn with
  | nil => rfl
  | append_singleton bytes b ih =>
      rw [afterAll_append, ih]
      by_cases hb : b = Byte.lineFeed
      · subst hb
        simp [afterAll, after, Nat.add_assoc]
      · simp [afterAll, after, hb]

/-- Trailing data is reported at the first byte after a document that is accepted and the blanks
that follow it.  Its position counts the line feeds before the byte and the bytes of its line
up to it. -/
theorem check_trailingData {t : Schema} {document : List UInt8} {mode : Mode}
    {position : Position} (h : check t document mode = .error (.trailingData position)) :
    ∃ before b rest, document = before ++ b :: rest ∧ Byte.isBlank b = false ∧
      isBlankDocument before = false ∧ check t before mode = .ok () ∧
      position.line = 1 + before.count Byte.lineFeed ∧
      position.column = 1 + (before.rtakeWhile (· ≠ Byte.lineFeed)).length := by
  have hlive : Walk.Live ⟨[], .value t⟩ := by
    intro k hk
    cases hk
    nofun
  rw [check] at h
  split at h
  · split at h <;> cases h
  · split at h
    · cases h
    next hm =>
      obtain ⟨before, b, rest, rfl, hb, hrun, rfl⟩ := Walk.exists_accepted_of_trailing hlive h
      obtain ⟨v, hv⟩ := Walk.written_of_run hrun
      have hblank := not_blank_of_written hv
      have hline : b ≠ Byte.lineFeed := by
        rintro rfl
        cases hb
      refine ⟨before, b, rest, rfl, hb, hblank, ?_, ?_⟩
      · rw [check, hblank, if_neg Bool.false_ne_true, if_neg hm, hrun]
      · rw [Position.afterAll_start, Position.after, if_neg hline]
        exact ⟨rfl, Nat.add_comm _ _⟩

/-- The byte that shows trailing data ends the number before it, as the end of the text would. -/
theorem check_trailingData_number :
    let document := Utf8.encode "\n12x"
    check .number document .strict = .error (.trailingData ⟨2, 3⟩) ∧
      ∃ before b rest, document = before ++ b :: rest ∧ Byte.isBlank b = false ∧
        isBlankDocument before = false ∧ check .number before .strict = .ok () ∧
        2 = 1 + before.count Byte.lineFeed ∧
        3 = 1 + (before.rtakeWhile (· ≠ Byte.lineFeed)).length := by
  intro document
  have h : check .number document .strict = .error (.trailingData ⟨2, 3⟩) := by decide +kernel
  exact ⟨h, check_trailingData h⟩

end Jstn
