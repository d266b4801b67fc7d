import Jstn.Proofs.Document.Breach
import Jstn.Proofs.Document.Outcome

/-!
# Values settled by a walk

A walk over the text of a value at a node passes it, finds its first breach, or is stuck
(`Settled`).  It passes a value that conforms and whose containers nest no deeper than it
can follow (`Fits`).  It is stuck only where the text is not UTF-8 or a value is undecodable
or nests deeper (`Stuck`).

A value that is not entered is settled here.  It is skipped where the node describes no
container (`settles_skipped`), and else it has another kind than the node
(`settles_misplaced`).
-/

namespace Jstn

open Json (Byte.isBlank Byte.quote Byte.openBracket Byte.openBrace Ends Position Skip Text Value
  Watch)

/-! ## Numbers that are read for their value -/

namespace Json.Number

/-- A number is read up to its end, or it is out of range wherever it stands. -/
theorem drive_of_rest {phase : Phase} {xs rest : List UInt8} (h : phase.Rest xs) (hr : Ends rest)
    (measure : Measure) (p q : Position) :
    (∃ value, drive step finish ⟨phase, measure⟩ p (xs ++ rest)
        = .ok (value, ⟨p.afterAll xs, rest⟩)) ∨
      (∃ p', drive step finish ⟨phase, measure⟩ p (xs ++ rest) = .error (.numberOutOfRange, p')) ∧
        ∃ q', drive step finish ⟨phase, measure⟩ q xs = .error (.numberOutOfRange, q') := by
  induction xs generalizing phase measure p q with
  | nil =>
      have hc := Phase.isComplete_of_rest h
      cases rest with
      | nil =>
          cases hv : measure.value? with
          | some value => exact Or.inl ⟨value, by simp [drive, finish, hc, hv, Position.afterAll]⟩
          | none => exact Or.inr ⟨⟨p, by simp [drive, finish, hc, hv]⟩,
              ⟨q, by simp [drive, finish, hc, hv]⟩⟩
      | cons b rest =>
          obtain ⟨hd, hp, he⟩ := hr b rfl
          have hstop := Phase.stop_of_isComplete hc hd hp he
          cases hv : measure.value? with
          | some value => exact Or.inl ⟨value, by simp [drive, step, hstop, hv, Position.afterAll]⟩
          | none => exact Or.inr ⟨⟨p, by simp [drive, step, hstop, hv, Side.place]⟩,
              ⟨q, by simp [drive, finish, hc, hv]⟩⟩
  | cons b xs ih =>
      obtain ⟨phase', hstep, hx⟩ := Phase.step_of_rest h
      simp only [List.cons_append, drive, step, hstep]
      cases measure.feed? phase' b with
      | some measure => exact ih hx measure (p.after b) (q.after b)
      | none => exact Or.inr ⟨⟨_, rfl⟩, ⟨_, rfl⟩⟩

theorem ofFirst?_of_phase {b : UInt8} {phase : Phase} (h : Phase.ofFirst? b = some phase) :
    ∃ measure, ofFirst? b = some ⟨phase, measure⟩ := by
  have hfeed : ∃ measure, Measure.feed? {} phase b = some measure := by
    rw [Phase.ofFirst?] at h
    repeat' (split at h)
    all_goals cases h
    all_goals exact ⟨_, rfl⟩
  obtain ⟨measure, hm⟩ := hfeed
  exact ⟨measure, by rw [ofFirst?, h, Option.bind_some, hm, Option.map_some]⟩

end Json.Number

namespace Walk

variable {mode : Mode} {outer : List Frame} {t : Schema}

/-! ## What can become of a value -/

/-- A value that conforms and nests no deeper than a walk inside `depth` containers can
follow. -/
def Fits (mode : Mode) (depth : Nat) (t : Schema) (v : Value) : Prop :=
  Conforms mode t v ∧ ∀ n, Enters t v n → depth + n ≤ maxOpen

/-- A walk has found a breach of a value inside frames.  It is the first one if properties
are in the order of their names. -/
structure Found (mode : Mode) (outer : List Frame) (t : Schema) (v : Value) (place : Location)
    (violation : Violation) : Prop where
  not_conforms : ¬Conforms mode t v
  first : t.Ordered →
    ∃ inner, place = location outer ++ inner ∧ FirstBreach mode t v inner violation

/-- Why a walk inside `depth` containers may not get through the text of a value. -/
inductive Stuck (mode : Mode) (depth : Nat) (t : Schema) (v : Value) (x : List UInt8) : Prop
  | undecodable : v.Undecodable → ¬Conforms mode t v → Stuck mode depth t v x
  | notUtf8 : ¬Utf8.Valid x → Stuck mode depth t v x
  | tooDeep {n : Nat} : Enters t v n → maxOpen < depth + n → Stuck mode depth t v x

/-- A walk settles a text at every node that takes values. -/
def Settled (mode : Mode) (v : Value) (x : List UInt8) : Prop :=
  ∀ outer t rest, Ends rest → refuses mode t = false →
    Settles mode (Fits mode outer.length t v) (Found mode outer t v)
      (Stuck mode outer.length t v x) ⟨outer, .value t⟩ x rest ⟨outer, .ended⟩

theorem found_here {v : Value} {violation : Violation} (h : Breaks mode t v violation) :
    Found mode outer t v (location outer) violation :=
  ⟨not_conforms_of_breaks h, fun _ => ⟨[], (List.append_nil _).symm, .here h⟩⟩

theorem location_cons (frame : Frame) (outer : List Frame) :
    location (frame :: outer) = location outer ++ [frame.segment] := by
  simp [location]

/-- Nothing is entered where the node describes no container. -/
theorem not_enters {v : Value} {n : Nat} (ht : ¬(t.kind = .array ∨ t.kind = .object)) :
    ¬Enters t v n := by
  intro h
  cases h with
  | root hk _ => exact ht hk
  | item hk _ _ _ => exact ht (Or.inl hk)
  | member hk _ _ _ => exact ht (Or.inr hk)

/-- Where the node describes no container the kinds tell how its rule is broken. -/
theorem breaks_of_violation? {v : Value} {violation : Violation} (hany : t.kind ≠ .any)
    (h : t.kind.violation? t.optional v.kind = some violation) : Breaks mode t v violation := by
  rw [Kind.violation?] at h
  split at h
  next => cases h
  next hne =>
    split at h
    next hnull =>
      split at h
      next => cases h
      next hopt =>
        obtain ⟨hkind, hscalar⟩ := hnull
        cases v with
        | null =>
            cases h
            exact .requiredNull hscalar (Bool.eq_false_iff.mpr hopt)
        | boolean _ | number _ | string _ | array _ | object _ => cases hkind
    next hnull =>
      cases h
      exact .wrongKind hany (Ne.symm hne) fun hs => hnull hs.symm

/-- A value of another kind breaks the rule of a node that describes a container. -/
theorem breaks_wrongKind {v : Value} (ht : t.kind = .array ∨ t.kind = .object)
    (hk : v.kind ≠ t.kind) : Breaks mode t v (.wrongKind t.kind v.kind) := by
  refine .wrongKind ?_ hk ?_
  · rcases ht with ht | ht <;> rw [ht] <;> nofun
  · rintro ⟨hs, -⟩
    rcases ht with ht | ht <;> rw [ht] at hs <;> cases hs

/-! ## Values that are not entered -/

/-- A value that is skipped. -/
theorem settles_skipped {v : Value} {x rest : List UInt8} (hv : Text v x) (hr : Ends rest)
    (hm : refuses mode t = false) (ht : ¬(t.kind = .array ∨ t.kind = .object)) :
    Settles mode (Fits mode outer.length t v) (Found mode outer t v) (Stuck mode outer.length t v x)
      ⟨outer, .value t⟩ x rest ⟨outer, .ended⟩ := by
  intro p
  obtain ⟨ha, ho⟩ := not_or.mp ht
  obtain ⟨b, xs, rfl, hb, -⟩ := Skip.text_head hv
  by_cases hany : t.kind = .any
  · have hstep : step mode ⟨outer, .value t⟩ p b
        = step mode ⟨outer, .skip .ignore .start⟩ p b := by
      simp only [step, hb, Bool.false_eq_true, if_false, beginValue, hany]
    have hlenient : mode = .lenient := by
      cases mode with
      | lenient => rfl
      | strict => simp [refuses, hany] at hm
    rw [List.cons_append, run_congr _ hstep, ← List.cons_append, run_skip (Skip.run_text hv hr p)]
    exact .passes ⟨.any hany hlenient, fun n hn => absurd hn (not_enters ht)⟩
  · have hstep : step mode ⟨outer, .value t⟩ p b
        = step mode
            ⟨outer, .skip (.scalar t.kind t.optional b (.sound .boundary p)) .start⟩ p b := by
      simp only [step, hb, Bool.false_eq_true, if_false, beginValue]
    rw [List.cons_append, run_congr _ hstep, ← List.cons_append, run_skip (Skip.run_text hv hr p)]
    simp only [settle, Purpose.fedAll, judge, kindOfFirst_text hv]
    cases hwatch : (Watch.sound .boundary p).feedAll p (b :: xs) with
    | broken q =>
        refine .sticks (.notUtf8 fun hx => ?_)
        obtain ⟨lead, hsound⟩ := Watch.feedAll_sound hx p p
        rw [hsound] at hwatch
        cases hwatch
    | sound s lead =>
        cases hviolation : t.kind.violation? t.optional v.kind with
        | none =>
            exact .passes ⟨(conforms_unvisited_iff ha ho hany).mpr hviolation,
              fun n hn => absurd hn (not_enters ht)⟩
        | some violation => exact .breaks (found_here (breaks_of_violation? hany hviolation))

section

variable {passed stuck : Prop} {broken : Location → Violation → Prop} {s' : State}
  {rest : List UInt8}

theorem settles_word {found : Kind} {d : UInt8} {due : List UInt8}
    (hb : broken (location outer) (.wrongKind t.kind found)) :
    Settles mode passed broken stuck ⟨outer, .word t found (d :: due)⟩ (d :: due) rest s' := by
  intro p
  rw [run_word, Json.Word.drive_due]
  exact .breaks hb

theorem settles_number {phase : Json.Number.Phase} {measure : Json.Number.Measure}
    {xs : List UInt8} (hx : phase.Rest xs) (hr : Ends rest)
    (hb : broken (location outer) (.wrongKind t.kind .number))
    (hs : ∀ q, Json.drive Json.Number.step Json.Number.finish ⟨phase, measure⟩ .start xs
      = .error (.numberOutOfRange, q) → stuck) :
    Settles mode passed broken stuck ⟨outer, .number t ⟨phase, measure⟩⟩ xs rest s' := by
  intro p
  rw [run_number]
  rcases Json.Number.drive_of_rest hx hr measure p .start with
    ⟨value, hdrive⟩ | ⟨⟨p', hdrive⟩, q, hrange⟩
  · rw [hdrive]
    exact .breaks hb
  · rw [hdrive]
    exact .sticks (hs q hrange)

theorem settles_string {body : List UInt8} {text : Option String}
    (hd : Json.Literal.Denotes body text)
    (hb : broken (location outer) (.wrongKind t.kind .string)) (hs : text = none → stuck) :
    Settles mode passed broken stuck ⟨outer, .string t .start⟩ (body ++ [Byte.quote]) rest s' := by
  intro p
  rw [run_string, List.append_assoc]
  cases text with
  | some text =>
      rw [List.cons_append, Json.Literal.read_of_denotes_some hd]
      exact .breaks hb
  | none =>
      obtain ⟨⟨fault, q⟩, he⟩ := Json.Literal.read_of_denotes_none hd p ([] ++ rest)
      rw [List.cons_append, he]
      exact .sticks (hs rfl)

end

theorem step_visit (ht : t.kind = .array ∨ t.kind = .object) {b : UInt8}
    (hb : Byte.isBlank b = false) (p : Position) :
    step mode ⟨outer, .value t⟩ p b = beginVisit outer t p b := by
  simp only [step, hb, Bool.false_eq_true, if_false, beginValue]
  rcases ht with ht | ht <;> rw [ht]

/-- A container at a node that describes the other. -/
theorem settles_opening {v : Value} {b : UInt8} {xs rest : List UInt8} {s' : State}
    (hv : Text v (b :: xs)) (ht : t.kind = .array ∨ t.kind = .object) (hk : v.kind ≠ t.kind)
    (hc : b = Byte.openBracket ∨ b = Byte.openBrace) :
    Settles mode (Fits mode outer.length t v) (Found mode outer t v)
      (Stuck mode outer.length t v (b :: xs))
      ⟨outer, .value t⟩ (b :: xs) rest s' := by
  intro p
  have hfound : Found mode outer t v (location outer) (.wrongKind t.kind v.kind) :=
    found_here (breaks_wrongKind ht hk)
  have hkind := kindOfFirst_text hv
  have hvisit : step mode ⟨outer, .value t⟩ p b = beginVisit outer t p b :=
    step_visit ht (by rcases hc with rfl | rfl <;> rfl) p
  rw [List.cons_append, run, hvisit]
  by_cases hl : maxOpen ≤ outer.length
  · have hdeep : beginVisit outer t p b = .fault .tooDeep (p.after b) := by
      rcases hc with rfl | rfl <;> exact if_pos hl
    rw [hdeep]
    refine .sticks (.tooDeep (.root ht ?_) (Nat.lt_succ_of_le hl))
    rcases hc with rfl | rfl
    · exact Or.inl hkind.symm
    · exact Or.inr hkind.symm
  · rcases hc with rfl | rfl
    · have ho : t.kind = .object := ht.resolve_left fun ha => hk (hkind.symm.trans ha.symm)
      have hbegin : beginVisit outer t p Byte.openBracket
          = .breach ⟨location outer, .wrongKind .object .array, .container .array⟩ true := by
        simp only [beginVisit, ho]
        exact if_neg hl
      rw [ho, ← hkind] at hfound
      rw [hbegin]
      exact .breaks hfound
    · have ha : t.kind = .array := ht.resolve_right fun ho => hk (hkind.symm.trans ho.symm)
      have hbegin : beginVisit outer t p Byte.openBrace
          = .breach ⟨location outer, .wrongKind .array .object, .container .object⟩ true := by
        simp only [beginVisit, ha]
        exact if_neg hl
      rw [ha, ← hkind] at hfound
      rw [hbegin]
      exact .breaks hfound

/-- A value of another kind at a node that describes a container. -/
theorem settles_misplaced {v : Value} {x rest : List UInt8} (hv : Text v x) (hr : Ends rest)
    (ht : t.kind = .array ∨ t.kind = .object) (hk : v.kind ≠ t.kind) :
    Settles mode (Fits mode outer.length t v) (Found mode outer t v) (Stuck mode outer.length t v x)
      ⟨outer, .value t⟩ x rest ⟨outer, .ended⟩ := by
  have hfound : Found mode outer t v (location outer) (.wrongKind t.kind v.kind) :=
    found_here (breaks_wrongKind ht hk)
  cases hv with
  | null | true | false =>
      exact .cons (fun p => step_visit ht rfl p) (settles_word hfound)
  | number hw =>
      obtain ⟨b, xs, phase, rfl, hb, hx⟩ := Json.Number.rest_of_written hw
      obtain ⟨measure, hm⟩ := Json.Number.ofFirst?_of_phase hb
      obtain ⟨hblank, hquote, -, hword⟩ := Skip.ofFirst?_not_word hb
      have hbegin : ∀ p, beginVisit outer t p b = .more ⟨outer, .number t ⟨phase, measure⟩⟩ := by
        intro p
        simp only [beginVisit, hword, hm, if_neg hquote]
      refine .cons (fun p => (step_visit ht hblank p).trans (hbegin p))
        (settles_number hx hr hfound fun q hq => ?_)
      exact .undecodable (.number ⟨b, xs, _, q, rfl, hm, hq⟩) hfound.not_conforms
  | string hd =>
      refine .cons (fun p => step_visit ht rfl p) (settles_string hd hfound ?_)
      rintro rfl
      exact .undecodable .string hfound.not_conforms
  | emptyArray hw => exact settles_opening (.emptyArray hw) ht hk (Or.inl rfl)
  | array hb hv => exact settles_opening (.array hb hv) ht hk (Or.inl rfl)
  | emptyObject hw => exact settles_opening (.emptyObject hw) ht hk (Or.inr rfl)
  | object hm hb hv => exact settles_opening (.object hm hb hv) ht hk (Or.inr rfl)

end Walk

end Jstn
