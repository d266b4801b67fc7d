import Jstn.Proofs.Document.Conforms
import Jstn.Proofs.Document.Skipped

/-!
# Outcomes of a walk

A walk over part of a document has one of three outcomes.  It goes on after the part, it
finds a violation, or it is stuck since the text is not what it can read (`Outcome`).  Each
outcome comes with what has then been shown about the part.  `Settles` says this of the run
from one state over some bytes to another, and such runs are put together like the texts
they read (`Settles.append`).

Inside a word, a number, a string or a key a walk runs the machine that reads it, and goes
on with what the machine gives (`run_of_drive`).
-/

namespace Jstn

open Json (Blanks Byte.isBlank Cursor Fault Position drive)

namespace Walk

/-! ## Outcomes -/

/-- What a result shows of a walk over part of a document, where `next` is the result of
the walk over what follows. -/
inductive Outcome (passed : Prop) (broken : Location → Violation → Prop) (stuck : Prop)
    (next : Except Rejection Unit) : Except Rejection Unit → Prop
  | passes : passed → Outcome passed broken stuck next next
  | breaks {location : Location} {violation : Violation} {position : Option Position} :
      broken location violation →
      Outcome passed broken stuck next (.error (.mismatch location violation position))
  | sticks {fault : Fault} {position : Position} :
      stuck → Outcome passed broken stuck next (.error (.malformed fault position))

section

variable {passed passed' stuck stuck' : Prop} {broken broken' : Location → Violation → Prop}
  {next next' result : Except Rejection Unit}

theorem Outcome.imp (h : Outcome passed broken stuck next result) (hp : passed → passed')
    (hb : ∀ {location violation}, broken location violation → broken' location violation)
    (hs : stuck → stuck') : Outcome passed' broken' stuck' next result := by
  cases h with
  | passes h => exact .passes (hp h)
  | breaks h => exact .breaks (hb h)
  | sticks h => exact .sticks (hs h)

/-- The walk over what follows has an outcome of its own. -/
theorem Outcome.trans (h : Outcome passed broken stuck next result)
    (h' : passed → Outcome passed' broken stuck next' next) :
    Outcome passed' broken stuck next' result := by
  cases h with
  | passes h => exact h' h
  | breaks h => exact .breaks h
  | sticks h => exact .sticks h

end

/-! ## Runs -/

variable {mode : Mode}

theorem run_congr {s s' : State} {p : Position} {b : UInt8} (rest : List UInt8)
    (h : step mode s p b = step mode s' p b) :
    run mode s p (b :: rest) = run mode s' p (b :: rest) := by
  rw [run, run, h]

/-- Whether blanks mean nothing where this is due. -/
def Task.takesBlanks : Task → Bool
  | .value _ | .ended | .firstItem _ | .nextItem .. | .firstKey _ | .nextKey .. | .colon .. => true
  | .skip .. | .word .. | .number .. | .string .. | .key .. => false

theorem step_blank {s : State} {b : UInt8} (h : s.task.takesBlanks = true)
    (hb : Byte.isBlank b = true) (p : Position) : step mode s p b = .more s := by
  obtain ⟨outer, task⟩ := s
  cases task with
  | ended => simp only [step, stepEnded, hb, if_true]
  | value _ | firstItem _ | nextItem _ _ | firstKey _ | nextKey _ _ | colon _ _ _ _ =>
      simp only [step, hb, if_true]
  | skip _ _ | word _ _ _ | number _ _ | string _ _ | key _ _ _ => cases h

theorem run_blanks {s : State} {w : List UInt8} (hs : s.task.takesBlanks = true) (hw : Blanks w)
    (p : Position) (rest : List UInt8) :
    run mode s p (w ++ rest) = run mode s (p.afterAll w) rest := by
  induction w generalizing p with
  | nil => rfl
  | cons b w ih =>
      obtain ⟨hb, hw⟩ := List.forall_mem_cons.mp hw
      rw [List.cons_append, run, step_blank hs hb p]
      exact ih hw (p.after b)

/-- A document that ends with blanks after its root value is accepted. -/
theorem run_ended_blanks {w : List UInt8} (hw : Blanks w) (p : Position) :
    run mode ⟨[], .ended⟩ p w = .ok () := by
  have h := @run_blanks mode ⟨[], .ended⟩ w rfl hw p []
  rwa [List.append_nil] at h

/-- The run from `s` over `x` to `s'` has one of the outcomes. -/
def Settles (mode : Mode) (passed : Prop) (broken : Location → Violation → Prop) (stuck : Prop)
    (s : State) (x rest : List UInt8) (s' : State) : Prop :=
  ∀ p, Outcome passed broken stuck (run mode s' (p.afterAll x) rest) (run mode s p (x ++ rest))

section

variable {passed passed' stuck stuck' : Prop} {broken broken' : Location → Violation → Prop}
  {s s' s'' : State} {b : UInt8} {w x y rest : List UInt8}

theorem Settles.refl (h : passed) : Settles mode passed broken stuck s [] rest s :=
  fun _ => .passes h

theorem Settles.imp (h : Settles mode passed broken stuck s x rest s') (hp : passed → passed')
    (hb : ∀ {location violation}, broken location violation → broken' location violation)
    (hs : stuck → stuck') : Settles mode passed' broken' stuck' s x rest s' :=
  fun p => (h p).imp hp hb hs

theorem Settles.append (h : Settles mode passed broken stuck s x (y ++ rest) s')
    (h' : passed → Settles mode passed' broken stuck s' y rest s'') :
    Settles mode passed' broken stuck s (x ++ y) rest s'' := by
  intro p
  rw [List.append_assoc, Json.Position.afterAll_append]
  exact (h p).trans fun hp => h' hp (p.afterAll x)

theorem Settles.cons (hs : ∀ p, step mode s p b = .more s')
    (h : Settles mode passed broken stuck s' x rest s'') :
    Settles mode passed broken stuck s (b :: x) rest s'' := by
  intro p
  rw [List.cons_append, run, hs p]
  exact h (p.after b)

theorem Settles.blanks (hs : s.task.takesBlanks = true) (hw : Blanks w)
    (h : Settles mode passed broken stuck s x rest s') :
    Settles mode passed broken stuck s (w ++ x) rest s' := by
  intro p
  rw [List.append_assoc, run_blanks hs hw, Json.Position.afterAll_append]
  exact h (p.afterAll w)

/-- The first byte may lead from another state. -/
theorem Settles.congr (hs : ∀ p, step mode s p b = step mode s' p b)
    (h : Settles mode passed broken stuck s' (b :: x) rest s'') :
    Settles mode passed broken stuck s (b :: x) rest s'' := by
  intro p
  rw [List.cons_append, run_congr _ (hs p), ← List.cons_append]
  exact h p

/-- A byte that shows a violation. -/
theorem Settles.breach {location : Location} {violation : Violation} {ending : Ending}
    {taken : Bool} (hs : ∀ p, step mode s p b = .breach ⟨location, violation, ending⟩ taken)
    (h : broken location violation) : Settles mode passed broken stuck s (b :: x) rest s' := by
  intro p
  rw [List.cons_append, run, hs p]
  exact .breaks h

end

/-! ## Machines inside a walk -/

variable {outer : List Frame}

/-- What comes of a reader: the walk goes on with what it gives, or ends with its fault. -/
def goOn {α : Type} (next : α → Cursor → Except Rejection Unit) :
    Except (Fault × Position) (α × Cursor) → Except Rejection Unit
  | .ok (a, c) => next a c
  | .error (fault, p) => .error (.malformed fault p)

/-- A walk inside something that a machine reads goes on with what the machine gives. -/
theorem run_of_drive {σ α : Type} (advance : σ → UInt8 → Json.Reply σ α)
    (stop : σ → Except Fault α) (task : σ → Task) (next : α → Cursor → Except Rejection Unit)
    (hstep : ∀ s p b rest, run mode ⟨outer, task s⟩ p (b :: rest) =
      match advance s b with
      | .more s => run mode ⟨outer, task s⟩ (p.after b) rest
      | .done a => next a ⟨p.after b, rest⟩
      | .stop a => next a ⟨p, b :: rest⟩
      | .fail fault side => .error (.malformed fault (side.place p b)))
    (hfinish : ∀ s p, finish ⟨outer, task s⟩ p =
      match stop s with
      | .ok a => next a ⟨p, []⟩
      | .error fault => .error (.malformed fault p))
    (s : σ) (p : Position) (bytes : List UInt8) :
    run mode ⟨outer, task s⟩ p bytes = goOn next (drive advance stop s p bytes) := by
  induction bytes generalizing s p with
  | nil =>
      rw [run, hfinish, drive]
      cases stop s <;> rfl
  | cons b rest ih =>
      rw [hstep, drive]
      cases advance s b with
      | more s => exact ih s (p.after b)
      | done _ | stop _ | fail _ _ => rfl

/-- A word where a container is due. -/
theorem run_word (node : Schema) (found : Kind) (due : List UInt8) (p : Position)
    (bytes : List UInt8) :
    run mode ⟨outer, .word node found due⟩ p bytes =
      goOn (fun _ c => .error ((misplaced outer node found).reject c))
        (drive Json.Word.step Json.Word.finish due p bytes) := by
  refine run_of_drive _ _ (fun due => .word node found due) _ ?_ (fun _ _ => rfl) due p bytes
  intro due p b rest
  simp only [run, step]
  cases Json.Word.step due b <;> rfl

/-- A number where a container is due. -/
theorem run_number (node : Schema) (t : Json.Number.State) (p : Position) (bytes : List UInt8) :
    run mode ⟨outer, .number node t⟩ p bytes =
      goOn (fun _ c => .error ((misplaced outer node .number).reject c))
        (drive Json.Number.step Json.Number.finish t p bytes) := by
  refine run_of_drive _ _ (fun t => .number node t) _ ?_ (fun t p => ?_) t p bytes
  · intro t p b rest
    simp only [run, step]
    cases Json.Number.step t b <;> rfl
  · simp only [finish]
    cases Json.Number.finish t <;> rfl

/-- What comes of the text that the decoded bytes of a literal spell. -/
def goOnText (next : String → Cursor → Except Rejection Unit) (decoded : List UInt8) (c : Cursor) :
    Except Rejection Unit :=
  goOn next ((Json.Literal.text decoded c.position).map fun text => (text, c))

/-- A literal is read as a whole. -/
theorem goOn_read (next : String → Cursor → Except Rejection Unit) (p : Position)
    (bytes : List UInt8) :
    goOn next (Json.Literal.read ⟨p, bytes⟩) =
      goOn (goOnText next)
        (drive Json.Literal.Decode.step Json.Literal.Decode.finish .start p bytes) := by
  rw [Json.Literal.read]
  cases drive Json.Literal.Decode.step Json.Literal.Decode.finish .start p bytes with
  | error e => rfl
  | ok r =>
      simp only [goOn, goOnText]
      cases Json.Literal.text r.1 r.2.position <;> rfl

/-- A string where a container is due. -/
theorem run_string (node : Schema) (p : Position) (bytes : List UInt8) :
    run mode ⟨outer, .string node .start⟩ p bytes =
      goOn (fun _ c => .error ((misplaced outer node .string).reject c))
        (Json.Literal.read ⟨p, bytes⟩) := by
  rw [goOn_read]
  refine run_of_drive _ _ (fun t => .string node t) _ ?_ (fun _ _ => rfl) .start p bytes
  intro t p b rest
  simp only [run, step]
  cases ht : t.step b with
  | stop decoded => exact absurd ht Json.Literal.Decode.step_ne_stop
  | more _ | fail _ _ => rfl
  | done decoded =>
      simp only [goOnText]
      cases Json.Literal.text decoded (p.after b) <;> rfl

/-- What comes of a key that has been read. -/
def goOnKey (mode : Mode) (outer : List Frame) (properties : List (String × Schema))
    (seen : List String) (name : String) (c : Cursor) : Except Rejection Unit :=
  match declared? mode properties name with
  | some node => run mode ⟨outer, .colon properties seen name node⟩ c.position c.rest
  | none =>
      .error (.mismatch (location outer) (.undeclared name)
        ((Ending.container .object).place c))

/-- A key in a visited object. -/
theorem run_key (properties : List (String × Schema)) (seen : List String) (p : Position)
    (bytes : List UInt8) :
    run mode ⟨outer, .key properties seen .start⟩ p bytes =
      goOn (goOnKey mode outer properties seen) (Json.Literal.read ⟨p, bytes⟩) := by
  rw [goOn_read]
  refine run_of_drive _ _ (fun t => .key properties seen t) _ ?_ (fun _ _ => rfl) .start p bytes
  intro t p b rest
  simp only [run, step]
  cases ht : t.step b with
  | stop decoded => exact absurd ht Json.Literal.Decode.step_ne_stop
  | more _ | fail _ _ => rfl
  | done decoded =>
      simp only [goOnText, endKey]
      cases Json.Literal.text decoded (p.after b) with
      | error e => rfl
      | ok name =>
          simp only [Except.map, goOn, goOnKey, declared?]
          cases NameMap.find? name properties with
          | some node => rfl
          | none => cases mode <;> rfl

end Walk

end Jstn
