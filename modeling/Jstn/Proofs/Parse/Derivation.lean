import Jstn.Proofs.Parse.Moves

/-!
# Parsing is derivation

A text is parsed to a tree just if the grammar derives the tree from its lexemes
and its brackets nest within the limit.

* A derivation is a run (`run_of_derives`), by induction on the derivation.
* Whatever state the machine is in, its lexemes so far are what that state says
  has been read (`Reads`).  Every move keeps this (`reads_move`), so at the end of
  the text there is a derivation.
* The limit only bounds how many brackets are open (`run_limit_iff`).
-/

namespace Jstn

namespace Parse

/-! ## Runs -/

namespace State

variable {limit : Option Nat}

theorem run_nil (s : State) : run limit s [] = .ok s := rfl

theorem run_cons {s s' : State} {l : Lexeme} (ls : List Lexeme) (h : step limit s l = .ok s') :
    run limit s (l :: ls) = run limit s' ls := by
  rw [run, List.foldlM_cons, h]
  rfl

theorem run_cons_eq_ok {s s' : State} {l : Lexeme} {ls : List Lexeme} :
    run limit s (l :: ls) = .ok s' ↔
      ∃ s₁, step limit s l = .ok s₁ ∧ run limit s₁ ls = .ok s' := by
  constructor
  · intro h
    cases hs : step limit s l with
    | ok s₁ =>
        rw [run_cons ls hs] at h
        exact ⟨s₁, rfl, h⟩
    | error e =>
        rw [run, List.foldlM_cons, hs] at h
        cases h
  · rintro ⟨s₁, hs, h⟩
    rw [run_cons ls hs, h]

theorem run_move {s s' : State} {l : Lexeme} (ls : List Lexeme) (h : Moves s l s') :
    run none s (l :: ls) = run none s' ls := run_cons ls (step_of_moves h nofun)

theorem run_append {s s' : State} {x : List Lexeme} (y : List Lexeme)
    (h : run limit s x = .ok s') : run limit s (x ++ y) = run limit s' y := by
  induction x generalizing s with
  | nil =>
      cases h
      rfl
  | cons l x ih =>
      obtain ⟨s₁, hs, h⟩ := run_cons_eq_ok.mp h
      rw [List.cons_append, run_cons _ hs, ih h]

/-- Line breaks where they mean nothing. -/
theorem run_breaks {s : State} {w : List Lexeme} (hs : ∀ l, Is .newline l → Moves s l s)
    (hw : Breaks w) : run none s w = .ok s := by
  induction w with
  | nil => rfl
  | cons l w ih =>
      obtain ⟨hl, hw⟩ := List.forall_mem_cons.mp hw
      rw [run_move w (hs l hl), ih hw]

/-- Blanks may be left out. -/
theorem run_significant (s : State) (ls : List Lexeme) :
    run limit s (significant ls) = run limit s ls := by
  induction ls generalizing s with
  | nil => rfl
  | cons l ls ih =>
      by_cases hl : Is .whitespace l
      · rw [run_cons ls (step_whitespace hl), ← ih, significant, List.filter_cons_of_neg]
        · rfl
        · simpa [Is] using hl
      · have hcons : significant (l :: ls) = l :: significant ls :=
          List.filter_cons_of_pos (by simpa [Is] using hl)
        rw [hcons]
        cases hs : step limit s l with
        | ok s' => rw [run_cons _ hs, run_cons _ hs, ih]
        | error e =>
            rw [run, run, List.foldlM_cons, List.foldlM_cons, hs]
            rfl

end State

open State

/-! ## Derivations are runs -/

/-- The run that a phrase is. -/
def Runs : Phrase → List Lexeme → Prop
  | .type t, x => ∀ stack, ∃ point : Point, point.type? = some t ∧
      run none ⟨stack, .typeDue⟩ x = .ok ⟨stack, point⟩
  | .declaration t, x => ∀ stack, run none ⟨stack, .typeDue⟩ x = .ok ⟨stack, .declared t⟩
  | .property name t, x => ∀ stack done, ∃ point : Point, point.type? = some t ∧
      run none ⟨stack, .propertyDue done⟩ x = .ok ⟨.object done name :: stack, point⟩
  | .properties ps, x => ∀ stack,
      run none ⟨stack, .propertyDue []⟩ x = .ok ⟨stack, .propertyDue (NameMap.ofPairs ps)⟩

/-- The lexemes begin with a token that opens a type, after line breaks. -/
def BeginsType (x : List Lexeme) : Prop :=
  ∃ w l y, x = w ++ l :: y ∧ Breaks w ∧
    (Is .openBracket l ∨ Is .openBrace l ∨ ∃ token kind, Is token l ∧ token.kind? = some kind)

theorem beginsType_of_declaration {t : Schema} {x : List Lexeme}
    (h : Derives (.declaration t) x) : BeginsType x := by
  cases h with
  | keyword hw hl hk => exact ⟨_, _, [], rfl, hw, Or.inr (Or.inr ⟨_, _, hl, hk⟩)⟩
  | emptyArray hw ho | array hw ho => exact ⟨_, _, _, rfl, hw, Or.inl ho⟩
  | object hw ho | objectUnended hw ho => exact ⟨_, _, _, rfl, hw, Or.inr (Or.inl ho)⟩

theorem beginsType_of_type {t : Schema} {x : List Lexeme} (h : Derives (.type t) x) :
    BeginsType x := by
  cases h with
  | required hd => exact beginsType_of_declaration hd
  | @optional _ _ mark hd hmark =>
      obtain ⟨w, l, y, rfl, hw, hl⟩ := beginsType_of_declaration hd
      exact ⟨w, l, y ++ [mark], by simp, hw, hl⟩

/-- Where a type or `]` is due a type is read as the type of the items. -/
theorem run_itemsDue {t : Schema} {x : List Lexeme} (h : Derives (.type t) x)
    (stack : List Frame) :
    run none ⟨stack, .itemsDue⟩ x = run none ⟨.array :: stack, .typeDue⟩ x := by
  obtain ⟨w, l, y, rfl, hw, hl⟩ := beginsType_of_type h
  have hitems : typeStack? ⟨stack, .itemsDue⟩ = some (.array :: stack) := rfl
  have htype : typeStack? ⟨.array :: stack, .typeDue⟩ = some (.array :: stack) := rfl
  rw [run_append _ (run_breaks (fun l hl => .itemsBreak hl) hw),
    run_append _ (run_breaks (fun l hl => .typeBreak hl) hw)]
  rcases hl with hl | hl | ⟨token, kind, hl, hk⟩
  · rw [run_move y (.openArray hitems hl),
      run_move y (.openArray htype hl)]
  · rw [run_move y (.openObject hitems hl),
      run_move y (.openObject htype hl)]
  · rw [run_move y (.keyword hitems hl hk), run_move y (.keyword htype hl hk)]

/-- Line breaks after a type that is no property's. -/
theorem run_typed_breaks {stack : List Frame} {point : Point} {t : Schema} {w : List Lexeme}
    (hp : point.type? = some t) (hs : NoProperty stack) (hw : Breaks w) :
    ∃ point' : Point, point'.type? = some t ∧
      run none ⟨stack, point⟩ w = .ok ⟨stack, point'⟩ := by
  cases w with
  | nil => exact ⟨point, hp, rfl⟩
  | cons l w =>
      obtain ⟨hl, hw⟩ := List.forall_mem_cons.mp hw
      refine ⟨.typed t, rfl, ?_⟩
      rw [run_move w (.typedBreak hp hs hl)]
      exact run_breaks (fun l hl => .typedBreak rfl hs hl) hw

theorem run_of_derives {phrase : Phrase} {x : List Lexeme} (h : Derives phrase x) :
    Runs phrase x := by
  induction h with
  | @required t x _ ih =>
      intro stack
      exact ⟨.declared t, rfl, ih stack⟩
  | @optional t x mark _ hmark ih =>
      intro stack
      refine ⟨.typed t.asOptional, rfl, ?_⟩
      rw [run_append _ (ih stack), run_move [] (.question hmark)]
      rfl
  | keyword hw hl hk =>
      intro stack
      rw [run_append _ (run_breaks (fun l hl => .typeBreak hl) hw),
        run_move [] (.keyword rfl hl hk)]
      rfl
  | emptyArray hw ho hw' hc =>
      intro stack
      rw [run_append _ (run_breaks (fun l hl => .typeBreak hl) hw),
        run_move _ (.openArray rfl ho),
        run_append _ (run_breaks (fun l hl => .itemsBreak hl) hw'), run_move [] (.emptyArray hc)]
      rfl
  | @array w w' x opening closing t hw ho hx hw' hc ih =>
      intro stack
      obtain ⟨point, hp, hrun⟩ := ih (.array :: stack)
      have hnoProperty : NoProperty (.array :: stack) := trivial
      obtain ⟨point', hp', hbreaks⟩ := run_typed_breaks hp hnoProperty hw'
      rw [run_append _ (run_breaks (fun l hl => .typeBreak hl) hw),
        run_move _ (.openArray rfl ho), run_append _ ((run_itemsDue hx stack).trans hrun),
        run_append _ hbreaks, run_move [] (.closeArray hp' hc)]
      rfl
  | object hw ho hx hw' hc ih =>
      intro stack
      rw [run_append _ (run_breaks (fun l hl => .typeBreak hl) hw),
        run_move _ (.openObject rfl ho), run_append _ (ih stack),
        run_append _ (run_breaks (fun l hl => .propertyBreak hl) hw'),
        run_move [] (.closeObject hc)]
      rfl
  | @objectUnended w x y opening closing ps name t hw ho hx hy hc ihx ihy =>
      intro stack
      obtain ⟨point, hp, hrun⟩ := ihy stack (NameMap.ofPairs ps)
      rw [run_append _ (run_breaks (fun l hl => .typeBreak hl) hw),
        run_move _ (.openObject rfl ho), run_append _ (ihx stack),
        run_append _ hrun, run_move [] (.closeTyped hp hc), ← NameMap.ofPairs_append]
      rfl
  | property hw hl hw' hm hx ih =>
      intro stack done
      obtain ⟨point, hp, hrun⟩ := ih (.object done _ :: stack)
      refine ⟨point, hp, ?_⟩
      rw [run_append _ (run_breaks (fun l hl => .propertyBreak hl) hw), run_move _ (.name hl),
        run_append _ (run_breaks (fun l hl => .colonBreak hl) hw'), run_move _ (.colon hm), hrun]
  | noProperties =>
      intro stack
      rfl
  | @moreProperties x y mark ps name t hx hy hmark ihx ihy =>
      intro stack
      obtain ⟨point, hp, hrun⟩ := ihy stack (NameMap.ofPairs ps)
      rw [run_append _ (ihx stack), run_append _ hrun, run_move [] (.endProperty hp hmark),
        NameMap.ofPairs_append]
      rfl

/-- The text of a schema is a run that ends well. -/
theorem ofLexemes_of_spells {t : Schema} {x : List Lexeme} (h : Spells t x) :
    ofLexemes none x = .ok t := by
  obtain ⟨w, y, w', rfl, hw, hy, hw'⟩ := h
  obtain ⟨point, hp, hrun⟩ := run_of_derives hy []
  have hnoProperty : NoProperty [] := trivial
  obtain ⟨point', hp', hbreaks⟩ := run_typed_breaks hp hnoProperty hw'
  have hstart : run none start (w ++ (y ++ w')) = .ok ⟨[], point'⟩ := by
    rw [start, run_append _ (run_breaks (fun l hl => .typeBreak hl) hw), run_append _ hrun,
      hbreaks]
  rw [ofLexemes, hstart]
  exact finish_eq_ok_iff.mpr ⟨rfl, hp'⟩

/-! ## What has been read -/

/-- The text before what is due inside frames. -/
inductive Opens : List Frame → List Lexeme → Prop
  | nil : Opens [] []
  | array {outer : List Frame} {z w : List Lexeme} {opening : Lexeme} :
      Opens outer z → Breaks w → Is .openBracket opening →
      Opens (.array :: outer) (z ++ (w ++ [opening]))
  | object {outer : List Frame} {z w x u u' : List Lexeme} {opening word colon : Lexeme}
      {ps : List (String × Schema)} :
      Opens outer z → Breaks w → Is .openBrace opening → Derives (.properties ps) x →
      Breaks u → Is .identifier word → Breaks u' → Is .colon colon →
      Opens (.object (NameMap.ofPairs ps) word.text :: outer)
        (z ++ (w ++ opening :: (x ++ (u ++ word :: (u' ++ [colon])))))

/-- The text that has led to a state. -/
inductive Reads : State → List Lexeme → Prop
  | typeDue {stack : List Frame} {z w : List Lexeme} :
      Opens stack z → Breaks w → Reads ⟨stack, .typeDue⟩ (z ++ w)
  | itemsDue {stack : List Frame} {z w w' : List Lexeme} {opening : Lexeme} :
      Opens stack z → Breaks w → Is .openBracket opening → Breaks w' →
      Reads ⟨stack, .itemsDue⟩ (z ++ (w ++ opening :: w'))
  | declared {stack : List Frame} {z x : List Lexeme} {t : Schema} :
      Opens stack z → Derives (.declaration t) x → Reads ⟨stack, .declared t⟩ (z ++ x)
  /-- A property ends with its first line break. -/
  | typed {stack : List Frame} {z x w : List Lexeme} {t : Schema} :
      Opens stack z → Derives (.type t) x → Breaks w → w = [] ∨ NoProperty stack →
      Reads ⟨stack, .typed t⟩ (z ++ (x ++ w))
  | propertyDue {stack : List Frame} {z w w' x : List Lexeme} {opening : Lexeme}
      {ps : List (String × Schema)} :
      Opens stack z → Breaks w → Is .openBrace opening → Derives (.properties ps) x →
      Breaks w' →
      Reads ⟨stack, .propertyDue (NameMap.ofPairs ps)⟩ (z ++ (w ++ opening :: (x ++ w')))
  | colonDue {stack : List Frame} {z w x u u' : List Lexeme} {opening word : Lexeme}
      {ps : List (String × Schema)} :
      Opens stack z → Breaks w → Is .openBrace opening → Derives (.properties ps) x →
      Breaks u → Is .identifier word → Breaks u' →
      Reads ⟨stack, .colonDue (NameMap.ofPairs ps) word.text⟩
        (z ++ (w ++ opening :: (x ++ (u ++ word :: u'))))

theorem Breaks.append_singleton {w : List Lexeme} {l : Lexeme} (hw : Breaks w)
    (hl : Is .newline l) : Breaks (w ++ [l]) := by
  intro m hm
  rcases List.mem_append.mp hm with hm | hm
  · exact hw m hm
  · exact List.mem_singleton.mp hm ▸ hl

/-- The text that has led to a point with a type. -/
theorem Reads.type {stack : List Frame} {point : Point} {t : Schema} {y : List Lexeme}
    (h : Reads ⟨stack, point⟩ y) (hp : point.type? = some t) :
    ∃ z x w, y = z ++ (x ++ w) ∧ Opens stack z ∧ Derives (.type t) x ∧ Breaks w ∧
      (w = [] ∨ NoProperty stack) := by
  cases h with
  | @declared _ z x t' hz hx =>
      cases hp
      exact ⟨z, x, [], by rw [List.append_nil], hz, .required hx, nofun, Or.inl rfl⟩
  | typed hz hx hw hs =>
      cases hp
      exact ⟨_, _, _, rfl, hz, hx, hw, hs⟩
  | typeDue _ _ | itemsDue _ _ _ _ | propertyDue _ _ _ _ _ | colonDue _ _ _ _ _ _ _ => cases hp

/-- The text before a type that is due, and the line breaks after it. -/
theorem Reads.typeStack {s : State} {stack : List Frame} {y : List Lexeme} (h : Reads s y)
    (hs : s.typeStack? = some stack) : ∃ z w, y = z ++ w ∧ Opens stack z ∧ Breaks w := by
  cases h with
  | typeDue hz hw =>
      cases hs
      exact ⟨_, _, rfl, hz, hw⟩
  | @itemsDue _ z w w' opening hz hw ho hw' =>
      cases hs
      exact ⟨z ++ (w ++ [opening]), w', by simp, .array hz hw ho, hw'⟩
  | declared _ _ | typed _ _ _ _ | propertyDue _ _ _ _ _ | colonDue _ _ _ _ _ _ _ => cases hs

/-- Every move keeps what has been read. -/
theorem reads_move {s s' : State} {l : Lexeme} {y : List Lexeme}
    (h : Reads s y) (hm : Moves s l s') : Reads s' (y ++ [l]) := by
  cases hm with
  | typeBreak hl =>
      cases h with
      | typeDue hz hw =>
          rw [List.append_assoc]
          exact .typeDue hz (hw.append_singleton hl)
  | itemsBreak hl =>
      cases h with
      | itemsDue hz hw ho hw' =>
          simp only [List.append_assoc, List.cons_append]
          exact .itemsDue hz hw ho (hw'.append_singleton hl)
  | openArray hs hl =>
      obtain ⟨z, w, rfl, hz, hw⟩ := h.typeStack hs
      rw [List.append_assoc]
      exact .itemsDue hz hw hl nofun
  | openObject hs hl =>
      obtain ⟨z, w, rfl, hz, hw⟩ := h.typeStack hs
      rw [List.append_assoc]
      exact .propertyDue hz hw hl .noProperties nofun
  | keyword hs hl hk =>
      obtain ⟨z, w, rfl, hz, hw⟩ := h.typeStack hs
      rw [List.append_assoc]
      exact .declared hz (.keyword hw hl hk)
  | emptyArray hl =>
      cases h with
      | itemsDue hz hw ho hw' =>
          simp only [List.append_assoc, List.cons_append]
          exact .declared hz (.emptyArray hw ho hw' hl)
  | question hl =>
      cases h with
      | @declared _ z x _ hz hx =>
          have hnone : Breaks [] := nofun
          have htyped := Reads.typed hz (.optional hx hl) hnone (Or.inl rfl)
          simpa using htyped
  | typedBreak hp hs hl =>
      obtain ⟨z, x, w, rfl, hz, hx, hw, -⟩ := h.type hp
      simp only [List.append_assoc]
      exact .typed hz hx (hw.append_singleton hl) (Or.inr hs)
  | closeArray hp hl =>
      obtain ⟨z, x, w, rfl, hz, hx, hw, -⟩ := h.type hp
      cases hz with
      | array hz hw₀ ho =>
          simp only [List.append_assoc, List.cons_append, List.nil_append]
          exact .declared hz (.array hw₀ ho hx hw hl)
  | endProperty hp hl =>
      obtain ⟨z, x, w, rfl, hz, hx, -, rfl | hs⟩ := h.type hp
      · cases hz with
        | object hz hw₀ ho hps hu hword hu' hcolon =>
            have hmore := Derives.moreProperties hps (.property hu hword hu' hcolon hx) hl
            rw [← NameMap.ofPairs_append]
            have hnone : Breaks [] := nofun
            have hdue := Reads.propertyDue hz hw₀ ho hmore hnone
            simpa using hdue
      · exact hs.elim
  | closeTyped hp hl =>
      obtain ⟨z, x, w, rfl, hz, hx, -, rfl | hs⟩ := h.type hp
      · cases hz with
        | object hz hw₀ ho hps hu hword hu' hcolon =>
            have hobject := Derives.objectUnended hw₀ ho hps (.property hu hword hu' hcolon hx) hl
            have hdeclared := Reads.declared hz hobject
            rw [Schema.object, NameMap.ofPairs_append] at hdeclared
            simpa using hdeclared
      · exact hs.elim
  | propertyBreak hl =>
      cases h with
      | propertyDue hz hw ho hps hw' =>
          simp only [List.append_assoc, List.cons_append]
          exact .propertyDue hz hw ho hps (hw'.append_singleton hl)
  | closeObject hl =>
      cases h with
      | propertyDue hz hw ho hps hw' =>
          simp only [List.append_assoc, List.cons_append]
          exact .declared hz (.object hw ho hps hw' hl)
  | name hl =>
      cases h with
      | propertyDue hz hw ho hps hw' =>
          simp only [List.append_assoc, List.cons_append]
          exact .colonDue hz hw ho hps hw' hl nofun
  | colonBreak hl =>
      cases h with
      | colonDue hz hw ho hps hu hword hu' =>
          simp only [List.append_assoc, List.cons_append]
          exact .colonDue hz hw ho hps hu hword (hu'.append_singleton hl)
  | colon hl =>
      cases h with
      | colonDue hz hw ho hps hu hword hu' =>
          have hopens := Opens.object hz hw ho hps hu hword hu' hl
          have hnone : Breaks [] := nofun
          have hdue := Reads.typeDue hopens hnone
          simpa using hdue

/-- What is read in a run. -/
theorem reads_run {limit : Option Nat} {s s' : State} {x y : List Lexeme} (h : Reads s y)
    (hr : run limit s x = .ok s') : Reads s' (y ++ significant x) := by
  induction x generalizing s y with
  | nil =>
      cases hr
      simpa [significant] using h
  | cons l x ih =>
      obtain ⟨s₁, hs, hrest⟩ := run_cons_eq_ok.mp hr
      rcases step_iff.mp hs with ⟨hl, rfl⟩ | ⟨hm, -⟩
      · have hskip : significant (l :: x) = significant x :=
          List.filter_cons_of_neg (by simpa [Is] using hl)
        rw [hskip]
        exact ih h hrest
      · have hl : ¬Is .whitespace l := not_whitespace_of_moves hm
        have hkeep : significant (l :: x) = l :: significant x :=
          List.filter_cons_of_pos (by simpa [Is] using hl)
        rw [hkeep]
        simpa using ih (reads_move h hm) hrest

/-- A run that ends well is the text of a schema. -/
theorem spells_of_ofLexemes {limit : Option Nat} {t : Schema} {x : List Lexeme}
    (h : ofLexemes limit x = .ok t) : Spells t (significant x) := by
  rw [ofLexemes] at h
  split at h
  next s hrun =>
    have hstart : Reads start ([] ++ []) := .typeDue .nil nofun
    have hreads := reads_run hstart hrun
    obtain ⟨stack, point⟩ := s
    have hend : stack = [] ∧ point.type? = some t := finish_eq_ok_iff.mp h
    obtain ⟨rfl, hp⟩ := hend
    obtain ⟨z, y, w, hx, hz, hy, hw, -⟩ := hreads.type hp
    cases hz
    exact ⟨[], y, w, hx, nofun, hy, hw⟩
  next => cases h

/-! ## The limit -/

theorem step_limit_iff {n : Nat} {s s' : State} {l : Lexeme} :
    step (some n) s l = .ok s' ↔ step none s l = .ok s' ∧ Fits (some n) s l := by
  rw [step_iff, step_iff]
  constructor
  · rintro (⟨hl, rfl⟩ | ⟨hm, hf⟩)
    · refine ⟨Or.inl ⟨hl, rfl⟩, fun ho => ?_⟩
      rw [opens_of_is hl] at ho
      cases ho
    · exact ⟨Or.inr ⟨hm, nofun⟩, hf⟩
  · rintro ⟨h | ⟨hm, -⟩, hf⟩
    · exact Or.inl h
    · exact Or.inr ⟨hm, hf⟩

theorem step_depth {limit : Option Nat} {s s' : State} {l : Lexeme}
    (h : step limit s l = .ok s') :
    s'.depth + (if closes l then 1 else 0) = s.depth + (if opens l then 1 else 0) := by
  rcases step_iff.mp h with ⟨hl, rfl⟩ | ⟨hm, -⟩
  · rw [opens_of_is hl, closes_of_is hl]
    rfl
  · exact moves_depth hm

theorem not_closes_of_opens {l : Lexeme} (h : opens l = true) : closes l = false := by
  simp only [opens, Bool.or_eq_true, decide_eq_true_eq] at h
  rcases h with h | h <;> simp [closes, h]

/-- A step fits if no more brackets are open after it than the limit allows. -/
theorem fits_iff {n : Nat} {s s' : State} {l : Lexeme} (hd : s.depth ≤ n)
    (h : step none s l = .ok s') : Fits (some n) s l ↔ s'.depth ≤ n := by
  have hdepth := step_depth h
  by_cases ho : opens l = true
  · rw [not_closes_of_opens ho, ho] at hdepth
    simp only [Bool.false_eq_true, if_false, if_true] at hdepth
    constructor
    · intro hf
      have hlt := hf ho n rfl
      omega
    · intro hn _ m hm
      cases hm
      omega
  · rw [Bool.not_eq_true] at ho
    rw [ho] at hdepth
    simp only [Bool.false_eq_true, if_false] at hdepth
    constructor
    · intro _
      omega
    · intro _ ho'
      rw [ho] at ho'
      cases ho'

/-- A run is within the limit if at no point too many brackets are open. -/
theorem run_limit_iff {n : Nat} {s s' : State} {ls : List Lexeme} (hd : s.depth ≤ n) :
    run (some n) s ls = .ok s' ↔
      run none s ls = .ok s' ∧
        ∀ x, x <+: ls → s.depth + x.countP opens ≤ x.countP closes + n := by
  induction ls generalizing s with
  | nil =>
      rw [run_nil, run_nil]
      refine (and_iff_left ?_).symm
      intro x hx
      obtain rfl := List.prefix_nil.mp hx
      simpa using hd
  | cons l ls ih =>
      have hcount : ∀ {s₁}, step none s l = .ok s₁ → ∀ x,
          s.depth + (l :: x).countP opens ≤ (l :: x).countP closes + n ↔
            s₁.depth + x.countP opens ≤ x.countP closes + n := by
        intro s₁ hs x
        have hdepth := step_depth hs
        rw [List.countP_cons, List.countP_cons]
        omega
      rw [run_cons_eq_ok, run_cons_eq_ok]
      constructor
      · rintro ⟨s₁, hs, hrun⟩
        obtain ⟨hs, hf⟩ := step_limit_iff.mp hs
        obtain ⟨hrun, hx⟩ := (ih ((fits_iff hd hs).mp hf)).mp hrun
        refine ⟨⟨s₁, hs, hrun⟩, fun x hxs => ?_⟩
        cases x with
        | nil => simpa using hd
        | cons m x =>
            obtain ⟨rfl, htail⟩ := List.cons_prefix_cons.mp hxs
            exact (hcount hs x).mpr (hx x htail)
      · rintro ⟨⟨s₁, hs, hrun⟩, hx⟩
        have hrest : ∀ x, x <+: ls → s₁.depth + x.countP opens ≤ x.countP closes + n :=
          fun x hxs => (hcount hs x).mp (hx (l :: x) (List.cons_prefix_cons.mpr ⟨rfl, hxs⟩))
        have hd₁ : s₁.depth ≤ n := by simpa using hrest [] List.nil_prefix
        exact ⟨s₁, step_limit_iff.mpr ⟨hs, (fits_iff hd hs).mpr hd₁⟩, (ih hd₁).mpr ⟨hrun, hrest⟩⟩

theorem ofLexemes_eq_ok_iff {limit : Option Nat} {t : Schema} {ls : List Lexeme} :
    ofLexemes limit ls = .ok t ↔ ∃ s, run limit start ls = .ok s ∧ s.finish = .ok t := by
  rw [ofLexemes]
  cases run limit start ls <;> simp

/-- Within a limit the same texts are parsed, as long as their brackets keep to it. -/
theorem ofLexemes_limit_iff {n : Nat} {t : Schema} {ls : List Lexeme} :
    ofLexemes (some n) ls = .ok t ↔ ofLexemes none ls = .ok t ∧ NestsWithin n ls := by
  have hstart : start.depth = 0 := rfl
  have hlimit : ∀ s, run (some n) start ls = .ok s ↔
      run none start ls = .ok s ∧ NestsWithin n ls := by
    intro s
    rw [run_limit_iff (Nat.zero_le n), hstart]
    simp only [NestsWithin, Nat.zero_add]
  simp only [ofLexemes_eq_ok_iff, hlimit]
  constructor
  · rintro ⟨s, ⟨hrun, hn⟩, hf⟩
    exact ⟨⟨s, hrun, hf⟩, hn⟩
  · rintro ⟨⟨s, hrun, hf⟩, hn⟩
    exact ⟨s, ⟨hrun, hn⟩, hf⟩

theorem ofLexemes_significant (limit : Option Nat) (ls : List Lexeme) :
    ofLexemes limit (significant ls) = ofLexemes limit ls := by
  rw [ofLexemes, run_significant, ofLexemes]

/-- Without a limit just the texts of schemas are parsed. -/
theorem ofLexemes_none_iff {t : Schema} {ls : List Lexeme} :
    ofLexemes none ls = .ok t ↔ Spells t (significant ls) := by
  constructor
  · exact spells_of_ofLexemes
  · intro h
    rw [← ofLexemes_significant]
    exact ofLexemes_of_spells h

end Parse

/-! ## Parsing -/

/-- Parsing is derivation: a text is parsed to a tree just if it is the text of the
tree and at most 128 brackets are open at once.  The tree of an object has under each name the
type that is declared last. -/
theorem parse_ok_iff_spells (source : String) (t : Schema) :
    (parse source = .ok t ↔
      Parse.Spells t (Parse.significant (tokenize source)) ∧
        Parse.NestsWithin 128 (Parse.significant (tokenize source))) ∧
      ∀ ps name, (Schema.object ps).property? name = Schema.lastOf? ps name := by
  refine ⟨?_, Schema.property?_object⟩
  have hsignificant : parse source
      = Parse.ofLexemes (some 128) (Parse.significant (tokenize source)) :=
    (Parse.ofLexemes_significant (some 128) (tokenize source)).symm
  rw [hsignificant, Parse.ofLexemes_limit_iff, Parse.ofLexemes_significant,
    Parse.ofLexemes_none_iff]

end Jstn
