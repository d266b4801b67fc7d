import Jstn.Json.Skip
import Jstn.Proofs.Json.Literal
import Jstn.Proofs.Json.Number

/-!
# Runs of skipping

A value is skipped by a machine whose stack holds the containers around the place it is
at.  A run inside more containers is a run inside fewer, followed by a run from where the
next container has got an entry (`runFrom_append`).  So a value inside a container is
skipped as it is skipped alone.

The words, numbers and literals inside a value are read by machines of their own, and
skipping passes every byte on to them (`drive_embed`).

The blanks around values are skipped by the cursor (`Cursor.exists_blanks_of_skipBlanks`).
-/

namespace Jstn

namespace Json

/-! ## Machines inside machines -/

/-- A machine that passes every byte on to another one runs as that one does. -/
theorem drive_embed {σ τ α : Type} {step : σ → UInt8 → Reply σ α}
    {finish : σ → Except Fault α} {step' : τ → UInt8 → Reply τ α}
    {finish' : τ → Except Fault α} (g : σ → τ)
    (hs : ∀ s b, step' (g s) b = match step s b with
      | .more s => .more (g s)
      | .done a => .done a
      | .stop a => .stop a
      | .fail fault side => .fail fault side)
    (hf : ∀ s, finish' (g s) = finish s) (s : σ) (p : Position) (bytes : List UInt8) :
    drive step' finish' (g s) p bytes = drive step finish s p bytes := by
  induction bytes generalizing s p with
  | nil => rw [drive, drive, hf]
  | cons b bytes ih =>
      rw [drive, drive, hs]
      cases step s b with
      | more s => exact ih s (p.after b)
      | done a => rfl
      | stop a => rfl
      | fail fault side => rfl

/-- A machine leaves its cursor after the bytes it has read. -/
theorem exists_read_of_drive {σ α : Type} {step : σ → UInt8 → Reply σ α}
    {finish : σ → Except Fault α} {s : σ} {p : Position} {bytes : List UInt8} {a : α} {c : Cursor}
    (h : drive step finish s p bytes = .ok (a, c)) :
    ∃ xs, bytes = xs ++ c.rest ∧ c.position = p.afterAll xs := by
  induction bytes generalizing s p with
  | nil =>
      rw [drive] at h
      split at h
      · obtain ⟨-, rfl⟩ := Prod.mk.inj (Except.ok.inj h)
        exact ⟨[], rfl, rfl⟩
      · cases h
  | cons b bytes ih =>
      rw [drive] at h
      split at h
      · obtain ⟨xs, rfl, hp⟩ := ih h
        exact ⟨b :: xs, rfl, hp⟩
      · obtain ⟨-, rfl⟩ := Prod.mk.inj (Except.ok.inj h)
        exact ⟨[b], rfl, rfl⟩
      · obtain ⟨-, rfl⟩ := Prod.mk.inj (Except.ok.inj h)
        exact ⟨[], rfl, rfl⟩
      · cases h

theorem Position.afterAll_append (p : Position) (xs ys : List UInt8) :
    p.afterAll (xs ++ ys) = (p.afterAll xs).afterAll ys := List.foldl_append

/-! ## Words -/

namespace Word

theorem drive_due {d : UInt8} {due : List UInt8} (p : Position) (rest : List UInt8) :
    drive step finish (d :: due) p (d :: due ++ rest)
      = .ok ((), ⟨p.afterAll (d :: due), rest⟩) := by
  induction due generalizing d p with
  | nil => simp [drive, step, Position.afterAll]
  | cons e due ih =>
      rw [List.cons_append, drive, step, if_pos rfl]
      · exact ih (p.after d)
      · exact List.cons_ne_nil e due

theorem due_of_drive {d : UInt8} {due bytes : List UInt8} {p : Position} {c : Cursor}
    (h : drive step finish (d :: due) p bytes = .ok ((), c)) : bytes = d :: due ++ c.rest := by
  induction due generalizing d p bytes with
  | nil =>
      cases bytes with
      | nil => cases h
      | cons b bytes =>
          simp only [drive, step] at h
          split at h
          next hb => split at hb <;> cases hb
          next hb =>
            obtain ⟨-, rfl⟩ := Prod.mk.inj (Except.ok.inj h)
            split at hb
            next heq => rw [heq]; rfl
            next => cases hb
          next hb => split at hb <;> cases hb
          next => cases h
  | cons e due ih =>
      cases bytes with
      | nil => cases h
      | cons b bytes =>
          simp only [drive, step] at h
          split at h
          next hb =>
            split at hb
            next heq =>
              cases hb
              rw [heq, ih h]
              rfl
            next => cases hb
          next hb => split at hb <;> cases hb
          next hb => split at hb <;> cases hb
          next => cases h

end Word

namespace Skip

/-! ## Runs from any state -/

/-- Skips on from a state to the end of the outermost value. -/
def runFrom (s : Skip) (p : Position) (bytes : List UInt8) : Except (Fault × Position) Cursor :=
  match drive step finish s p bytes with
  | .ok ((), c) => .ok c
  | .error e => .error e

theorem runFrom_nil (s : Skip) (p : Position) :
    runFrom s p [] = match finish s with
      | .ok () => .ok ⟨p, []⟩
      | .error fault => .error (fault, p) := by
  rw [runFrom, drive]
  cases finish s <;> rfl

theorem runFrom_cons (s : Skip) (p : Position) (b : UInt8) (rest : List UInt8) :
    runFrom s p (b :: rest) = match step s b with
      | .more s => runFrom s (p.after b) rest
      | .done () => .ok ⟨p.after b, rest⟩
      | .stop () => .ok ⟨p, b :: rest⟩
      | .fail fault side => .error (fault, side.place p b) := by
  rw [runFrom, drive]
  cases step s b <;> rfl

theorem runFrom_eq_ok {s : Skip} {p : Position} {bytes : List UInt8} {c : Cursor} :
    runFrom s p bytes = .ok c ↔ drive step finish s p bytes = .ok ((), c) := by
  rw [runFrom]
  cases drive step finish s p bytes with
  | ok r =>
      obtain ⟨⟨⟩, c'⟩ := r
      simp
  | error e => simp

theorem length_runFrom {s : Skip} {p : Position} {bytes : List UInt8} {c : Cursor}
    (h : runFrom s p bytes = .ok c) : c.rest.length ≤ bytes.length :=
  length_drive (runFrom_eq_ok.mp h)

/-! ## The stack -/

/-- What a reply to a state becomes if further containers stand around it. -/
def under (outer : List Container) (b : UInt8) : Reply Skip Unit → Reply Skip Unit
  | .more s => .more ⟨s.outer ++ outer, s.point⟩
  | .done () => closeOn outer
  | .stop () => stepEnded outer b
  | .fail fault side => .fail fault side

theorem closeOn_append (inner outer : List Container) (b : UInt8) :
    closeOn (inner ++ outer) = under outer b (closeOn inner) := by
  cases inner <;> rfl

theorem stepValue_append (inner outer : List Container) (b : UInt8) :
    stepValue (inner ++ outer) b = under outer b (stepValue inner b) := by
  simp only [stepValue]
  split
  · rfl
  · split
    · rfl
    · split <;> rfl

theorem stepKey_append (inner outer : List Container) (b : UInt8) :
    stepKey (inner ++ outer) b = under outer b (stepKey inner b) := by
  simp only [stepKey]
  split
  · rfl
  · split <;> rfl

theorem stepFirst_append (inner outer : List Container) (k : Container) (b : UInt8) :
    stepFirst (inner ++ outer) k b = under outer b (stepFirst inner k b) := by
  simp only [stepFirst]
  split
  · rfl
  · split
    · exact closeOn_append inner outer b
    · cases k with
      | array => exact stepValue_append (.array :: inner) outer b
      | object => exact stepKey_append inner outer b

theorem stepAfter_append (inner outer : List Container) (k : Container) (b : UInt8) :
    stepAfter (inner ++ outer) k b = under outer b (stepAfter inner k b) := by
  simp only [stepAfter]
  split
  · rfl
  · split
    · exact closeOn_append inner outer b
    · split
      · cases k <;> rfl
      · rfl

theorem stepEnded_append (inner outer : List Container) (b : UInt8) :
    stepEnded (inner ++ outer) b = under outer b (stepEnded inner b) := by
  cases inner with
  | nil => rfl
  | cons k inner => exact stepAfter_append inner outer k b

/-- A step inside more containers. -/
theorem step_append (inner outer : List Container) (point : SkipPoint) (b : UInt8) :
    step ⟨inner ++ outer, point⟩ b = under outer b (step ⟨inner, point⟩ b) := by
  cases point with
  | value => exact stepValue_append inner outer b
  | word due =>
      simp only [step]
      cases Word.step due b with
      | more due => rfl
      | done a => exact closeOn_append inner outer b
      | stop a => exact stepEnded_append inner outer b
      | fail fault side => rfl
  | number phase =>
      simp only [step]
      cases phase.step b with
      | more phase => rfl
      | done a => exact closeOn_append inner outer b
      | stop a => exact stepEnded_append inner outer b
      | fail fault side => rfl
  | string t =>
      simp only [step]
      cases t.step b with
      | more t => rfl
      | done a => exact closeOn_append inner outer b
      | stop a => exact stepEnded_append inner outer b
      | fail fault side => rfl
  | first k => exact stepFirst_append inner outer k b
  | after k => exact stepAfter_append inner outer k b
  | key => exact stepKey_append inner outer b
  | keyText t =>
      simp only [step]
      cases t.step b <;> rfl
  | colon =>
      simp only [step]
      split
      · rfl
      · split <;> rfl

/-- A run inside further containers goes on where the innermost of them has got an
entry. -/
theorem runFrom_append (inner outer : List Container) (k : Container) (point : SkipPoint)
    (p : Position) (bytes : List UInt8) :
    runFrom ⟨inner ++ k :: outer, point⟩ p bytes = match runFrom ⟨inner, point⟩ p bytes with
      | .ok c => runFrom ⟨outer, .after k⟩ c.position c.rest
      | .error e => .error e := by
  induction bytes generalizing inner point p with
  | nil =>
      rw [runFrom_nil, runFrom_nil]
      cases point with
      | value | word _ | string _ | keyText _ | key | colon | first _ | after _ => rfl
      | number phase =>
          simp only [finish]
          cases phase.isComplete with
          | false => rfl
          | true => cases inner <;> rfl
  | cons b bytes ih =>
      rw [runFrom_cons, runFrom_cons, step_append]
      cases step ⟨inner, point⟩ b with
      | more s => exact ih s.outer s.point (p.after b)
      | done a => rfl
      | stop a => exact (runFrom_cons ⟨outer, .after k⟩ p b bytes).symm
      | fail fault side => rfl

/-! ## Blanks -/

/-- A place where blanks mean nothing. -/
class TakesBlanks (point : SkipPoint) : Prop where
  /-- A blank is taken and changes nothing. -/
  step_blank : ∀ outer b, Byte.isBlank b = true → step ⟨outer, point⟩ b = .more ⟨outer, point⟩
  /-- The text may not end here. -/
  finish_ne_ok : ∀ outer, finish ⟨outer, point⟩ ≠ .ok ()

instance : TakesBlanks .value := ⟨fun _ _ hb => by rw [step, stepValue, if_pos hb], nofun⟩

instance (k : Container) : TakesBlanks (.first k) :=
  ⟨fun _ _ hb => by simp only [step, stepFirst, if_pos hb], nofun⟩

instance (k : Container) : TakesBlanks (.after k) :=
  ⟨fun _ _ hb => by simp only [step, stepAfter, if_pos hb], nofun⟩

instance : TakesBlanks .key := ⟨fun _ _ hb => by rw [step, stepKey, if_pos hb], nofun⟩

instance : TakesBlanks .colon := ⟨fun _ _ hb => by rw [step, if_pos hb], nofun⟩

theorem runFrom_blanks {outer : List Container} {point : SkipPoint} [TakesBlanks point]
    {w : List UInt8} (hw : Blanks w) (p : Position) (rest : List UInt8) :
    runFrom ⟨outer, point⟩ p (w ++ rest) = runFrom ⟨outer, point⟩ (p.afterAll w) rest := by
  induction w generalizing p with
  | nil => rfl
  | cons b w ih =>
      obtain ⟨hb, hw⟩ := List.forall_mem_cons.mp hw
      rw [List.cons_append, runFrom_cons, TakesBlanks.step_blank outer b hb]
      exact ih hw (p.after b)

/-- The blanks at the front of bytes. -/
theorem exists_blanks (bytes : List UInt8) :
    ∃ w rest, bytes = w ++ rest ∧ Blanks w ∧ ∀ b ∈ rest.head?, Byte.isBlank b = false := by
  induction bytes with
  | nil => exact ⟨[], [], rfl, nofun, nofun⟩
  | cons b bytes ih =>
      cases hb : Byte.isBlank b with
      | true =>
          obtain ⟨w, rest, rfl, hw, hr⟩ := ih
          exact ⟨b :: w, rest, rfl, List.forall_mem_cons.mpr ⟨hb, hw⟩, hr⟩
      | false => exact ⟨[], b :: bytes, rfl, nofun, fun c hc => by simp_all⟩

/-- A run that ends well comes to a byte that is not blank. -/
theorem exists_blanks_of_run {outer : List Container} {point : SkipPoint} [TakesBlanks point]
    {p : Position} {bytes : List UInt8} {c : Cursor}
    (h : runFrom ⟨outer, point⟩ p bytes = .ok c) :
    ∃ w b rest, bytes = w ++ b :: rest ∧ Blanks w ∧ Byte.isBlank b = false ∧
      runFrom ⟨outer, point⟩ (p.afterAll w) (b :: rest) = .ok c := by
  obtain ⟨w, rest, rfl, hw, hr⟩ := exists_blanks bytes
  rw [runFrom_blanks hw] at h
  cases rest with
  | nil =>
      rw [runFrom_nil] at h
      split at h
      next hf => exact absurd hf (TakesBlanks.finish_ne_ok outer)
      next => cases h
  | cons b rest => exact ⟨w, b, rest, rfl, hw, hr b rfl, h⟩

/-! ## Scalars and keys -/

theorem drive_word (due : List UInt8) (p : Position) (bytes : List UInt8) :
    drive step finish ⟨[], .word due⟩ p bytes = drive Word.step Word.finish due p bytes := by
  refine drive_embed (fun due => (⟨[], .word due⟩ : Skip)) (fun due b => ?_) (fun due => rfl)
    due p bytes
  simp only [step]
  cases Word.step due b <;> rfl

theorem drive_number (phase : Number.Phase) (p : Position) (bytes : List UInt8) :
    drive step finish ⟨[], .number phase⟩ p bytes
      = drive Number.Phase.step Number.Phase.finish phase p bytes := by
  refine drive_embed (fun phase => (⟨[], .number phase⟩ : Skip)) (fun phase b => ?_)
    (fun phase => rfl) phase p bytes
  simp only [step]
  cases phase.step b <;> rfl

theorem drive_string (t : Literal.Skip) (p : Position) (bytes : List UInt8) :
    drive step finish ⟨[], .string t⟩ p bytes
      = drive Literal.Skip.step Literal.Skip.finish t p bytes := by
  refine drive_embed (fun t => (⟨[], .string t⟩ : Skip)) (fun t b => ?_) (fun t => rfl) t p bytes
  simp only [step]
  cases t.step b <;> rfl

theorem runFrom_keyText (outer : List Container) (t : Literal.Skip) (p : Position)
    (bytes : List UInt8) :
    runFrom ⟨outer, .keyText t⟩ p bytes
      = match drive Literal.Skip.step Literal.Skip.finish t p bytes with
        | .ok ((), c) => runFrom ⟨outer, .colon⟩ c.position c.rest
        | .error e => .error e := by
  induction bytes generalizing t p with
  | nil => rfl
  | cons b bytes ih =>
      rw [runFrom_cons, drive]
      simp only [step]
      cases ht : t.step b with
      | more t => exact ih t (p.after b)
      | done a => rfl
      | stop a => exact absurd ht Literal.Skip.step_ne_stop
      | fail fault side => rfl

/-! ## The first byte of a value -/

theorem ofFirst?_not_word {b : UInt8} {phase : Number.Phase}
    (h : Number.Phase.ofFirst? b = some phase) :
    Byte.isBlank b = false ∧ b ≠ Byte.quote ∧ b ≠ Byte.closeBracket ∧ Word.ofFirst? b = none := by
  have hne : ∀ c, Number.Phase.ofFirst? c = none → b ≠ c := by
    rintro c hc rfl
    rw [hc] at h
    cases h
  refine ⟨?_, hne _ rfl, hne _ rfl, ?_⟩
  · simp [Byte.isBlank, hne 0x20 rfl, hne 0x09 rfl, hne 0x0A rfl, hne 0x0D rfl]
  · rw [Word.ofFirst?, if_neg (hne _ rfl), if_neg (hne _ rfl),
      if_neg (hne _ rfl)]

theorem step_number {b : UInt8} {phase : Number.Phase} (h : Number.Phase.ofFirst? b = some phase)
    (outer : List Container) : step ⟨outer, .value⟩ b = .more ⟨outer, .number phase⟩ := by
  obtain ⟨hb, hq, -, hw⟩ := ofFirst?_not_word h
  rw [step, stepValue, if_neg (by simp [hb]), if_neg hq, hw, h]

/-- A text begins with a byte that is no blank and closes no array. -/
theorem text_head {v : Value} {x : List UInt8} (h : Text v x) :
    ∃ b xs, x = b :: xs ∧ Byte.isBlank b = false ∧ b ≠ Byte.closeBracket := by
  cases h with
  | number hw =>
      obtain ⟨b, xs, phase, rfl, hb, -⟩ := Number.rest_of_written hw
      obtain ⟨hblank, -, hclose, -⟩ := ofFirst?_not_word hb
      exact ⟨b, xs, rfl, hblank, hclose⟩
  | null | true | false | string _ | emptyArray _ | array _ _ | emptyObject _ | object _ _ _ =>
      exact ⟨_, _, rfl, by decide, by decide⟩

end Skip

/-! ## Cursors at blanks -/

namespace Cursor

theorem skipBlanks_append {w rest : List UInt8} (p : Position) (hw : Blanks w)
    (hrest : ∀ b ∈ rest.head?, Byte.isBlank b = false) :
    (⟨p, w ++ rest⟩ : Cursor).skipBlanks = ⟨p.afterAll w, rest⟩ := by
  rw [skipBlanks]
  induction w generalizing p with
  | nil =>
      cases rest with
      | nil => rfl
      | cons b rest =>
          rw [List.nil_append, skipBlanksFrom, hrest b rfl]
          rfl
  | cons b w ih =>
      obtain ⟨hb, hw⟩ := List.forall_mem_cons.mp hw
      rw [List.cons_append, skipBlanksFrom, if_pos hb]
      exact ih (p.after b) hw

theorem skipBlanks_append_cons {w rest : List UInt8} {b : UInt8} (p : Position) (hw : Blanks w)
    (hb : Byte.isBlank b = false) :
    (⟨p, w ++ b :: rest⟩ : Cursor).skipBlanks = ⟨p.afterAll w, b :: rest⟩ := by
  refine skipBlanks_append p hw ?_
  rintro d hd
  cases hd
  exact hb

/-- Skipping takes the blanks at the front and no more. -/
theorem exists_blanks_of_skipBlanks (c : Cursor) :
    ∃ w, Blanks w ∧ c.rest = w ++ c.skipBlanks.rest ∧
      ∀ b ∈ c.skipBlanks.rest.head?, Byte.isBlank b = false := by
  obtain ⟨p, bytes⟩ := c
  obtain ⟨w, rest, rfl, hw, hrest⟩ := Skip.exists_blanks bytes
  rw [skipBlanks_append p hw hrest]
  exact ⟨w, hw, rfl, hrest⟩

theorem skipBlanks_skipBlanks (c : Cursor) : c.skipBlanks.skipBlanks = c.skipBlanks := by
  obtain ⟨w, -, -, hrest⟩ := exists_blanks_of_skipBlanks c
  exact skipBlanks_append (w := []) c.skipBlanks.position nofun hrest

theorem blanks_iff_skipBlanks (c : Cursor) : Blanks c.rest ↔ c.skipBlanks.rest = [] := by
  obtain ⟨w, hw, hrest, hhead⟩ := exists_blanks_of_skipBlanks c
  constructor
  · intro hblanks
    cases hskip : c.skipBlanks.rest with
    | nil => rfl
    | cons b bytes =>
        rw [hskip] at hrest hhead
        have hblank := hblanks b (by rw [hrest]; simp)
        rw [hhead b rfl] at hblank
        cases hblank
  · intro hskip
    rwa [hrest, hskip, List.append_nil]

end Cursor

end Json

end Jstn
