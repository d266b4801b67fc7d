import Jstn.Proofs.Document.Erasure

/-!
# Where the root value ends

A walk that gets through the root value accepts, or it finds trailing data
(`Walk.ReadsRoot`).  Either way it has read just what skipping the value reads
(`Walk.skipFrom_of_readsRoot`), and what comes after the value decides the result
(`Walk.afterRoot`).  Neither depends on the schema or the mode, so all walks that get
through the root value of a document end alike (`root_ends_alike`).
-/

namespace Jstn

open Json (Blanks Byte.isBlank Cursor Position Skip)

namespace Walk

/-- The result is that of a walk through the whole root value. -/
inductive ReadsRoot : Except Rejection Unit → Prop
  | accepts : ReadsRoot (.ok ())
  | trails {position : Position} : ReadsRoot (.error (.trailingData position))

/-- The result of a walk whose root value has ended at a cursor. -/
def afterRoot (c : Cursor) : Except Rejection Unit :=
  match c.skipBlanks.rest with
  | [] => .ok ()
  | _ :: _ => .error (.trailingData c.skipBlanks.advance.position)

theorem afterRoot_blank {b : UInt8} (hb : Byte.isBlank b = true) (p : Position)
    (rest : List UInt8) : afterRoot ⟨p, b :: rest⟩ = afterRoot ⟨p.after b, rest⟩ := by
  have hskip : (⟨p, b :: rest⟩ : Cursor).skipBlanks = (⟨p.after b, rest⟩ : Cursor).skipBlanks :=
    if_pos hb
  rw [afterRoot, afterRoot, hskip]

theorem afterRoot_not_blank {b : UInt8} (hb : Byte.isBlank b = false) (p : Position)
    (rest : List UInt8) :
    afterRoot ⟨p, b :: rest⟩ = .error (.trailingData (p.after b)) := by
  have hskip : (⟨p, b :: rest⟩ : Cursor).skipBlanks = ⟨p, b :: rest⟩ := if_neg (by simp [hb])
  rw [afterRoot, hskip]
  rfl

theorem afterRoot_eq_ok_iff (c : Cursor) : afterRoot c = .ok () ↔ Blanks c.rest := by
  rw [c.blanks_iff_skipBlanks, afterRoot]
  cases c.skipBlanks.rest <;> simp

/-! ## The byte that shows trailing data -/

theorem stepEnded_trailing {outer : List Frame} {p : Position} {b : UInt8}
    (h : stepEnded outer p b = .trailing) : outer = [] ∧ Byte.isBlank b = false := by
  unfold stepEnded at h
  split at h
  next => cases h
  next hb =>
    split at h
    next => exact ⟨rfl, by simpa using hb⟩
    next =>
      split at h
      · cases h
      · split at h <;> cases h
    next properties seen name outer =>
      split at h
      · rw [closeObject] at h
        split at h <;> cases h
      · split at h <;> cases h

theorem stepSkip_trailing {outer : List Frame} {purpose : Purpose} {k : Skip} {p : Position}
    {b : UInt8} (h : stepSkip outer purpose k p b = .trailing) :
    outer = [] ∧ Byte.isBlank b = false ∧ k.step b = .stop () := by
  rw [stepSkip] at h
  split at h
  next => cases h
  next => rw [endSkip] at h; split at h <;> cases h
  next hk =>
    rw [endSkip] at h
    split at h
    · cases h
    · cases h
    · obtain ⟨houter, hb⟩ := stepEnded_trailing h
      exact ⟨houter, hb, hk⟩
  next => cases h

theorem beginVisit_ne_trailing {outer : List Frame} {node : Schema} {p : Position} {b : UInt8} :
    beginVisit outer node p b ≠ .trailing := by
  intro h
  rw [beginVisit] at h
  split at h
  · cases h
  · split at h
    · cases h
    · cases h
    · split at h
      · cases h
      · split at h <;> cases h
    · cases h

theorem beginValue_trailing {outer : List Frame} {node : Schema} {p : Position} {b : UInt8}
    (h : beginValue outer node p b = .trailing) :
    outer = [] ∧ Byte.isBlank b = false ∧ Skip.start.step b = .stop () := by
  rw [beginValue] at h
  split at h
  · exact stepSkip_trailing h
  · exact absurd h beginVisit_ne_trailing
  · exact absurd h beginVisit_ne_trailing
  · exact stepSkip_trailing h

theorem beginItem_ne_trailing {mode : Mode} {outer : List Frame} {items : Option Schema}
    {index : Nat} {p : Position} {b : UInt8} :
    beginItem mode outer items index p b ≠ .trailing := by
  intro h
  unfold beginItem at h
  cases items with
  | none => cases (stepSkip_trailing h).1
  | some node =>
      simp only at h
      split at h
      · cases h
      · cases (beginValue_trailing h).1

theorem beginKey_ne_trailing {outer : List Frame} {properties : List (String × Schema)}
    {seen : List String} {p : Position} {b : UInt8} :
    beginKey outer properties seen p b ≠ .trailing := by
  intro h
  rw [beginKey] at h
  split at h <;> cases h

theorem endKey_ne_trailing {mode : Mode} {outer : List Frame}
    {properties : List (String × Schema)} {seen : List String} {decoded : List UInt8}
    {p : Position} : endKey mode outer properties seen decoded p ≠ .trailing := by
  intro h
  unfold endKey at h
  split at h
  · cases h
  · split at h <;> cases h

/-- The byte comes after the value that is skipped. -/
def Trails (k : Option Skip) (b : UInt8) : Prop :=
  Byte.isBlank b = false ∧ ∀ k' ∈ k, k'.step b = .stop ()

/-- Where a walk finds trailing data its skip has ended. -/
theorem trails_of_step {mode : Mode} {s : State} {p : Position} {b : UInt8}
    (h : step mode s p b = .trailing) : Trails (erase s) b := by
  match s with
  | ⟨outer, .value node⟩ =>
      simp only [step] at h
      split at h
      · cases h
      · obtain ⟨rfl, hb, hstop⟩ := beginValue_trailing h
        exact ⟨hb, fun k' hk => Option.some.inj hk ▸ hstop⟩
  | ⟨outer, .skip purpose k⟩ =>
      obtain ⟨rfl, hb, hstop⟩ := stepSkip_trailing h
      refine ⟨hb, fun k' hk => ?_⟩
      simp only [erase, containers, List.map_nil, List.append_nil, Option.mem_def,
        Option.some.injEq] at hk
      exact hk ▸ hstop
  | ⟨outer, .ended⟩ =>
      obtain ⟨rfl, hb⟩ := stepEnded_trailing h
      exact ⟨hb, fun k' hk => absurd hk (Option.not_mem_none k')⟩
  | ⟨outer, .word ..⟩ =>
      simp only [step] at h
      split at h <;> cases h
  | ⟨outer, .number ..⟩ =>
      simp only [step] at h
      split at h <;> cases h
  | ⟨outer, .string ..⟩ =>
      simp only [step] at h
      split at h
      · cases h
      · split at h <;> cases h
      · split at h <;> cases h
      · cases h
  | ⟨outer, .firstItem items⟩ =>
      simp only [step] at h
      split at h
      · cases h
      · split at h
        · cases h
        · exact absurd h beginItem_ne_trailing
  | ⟨outer, .nextItem items index⟩ =>
      simp only [step] at h
      split at h
      · cases h
      · split at h
        · cases h
        · exact absurd h beginItem_ne_trailing
  | ⟨outer, .firstKey properties⟩ =>
      simp only [step] at h
      split at h
      · cases h
      · split at h
        · rw [closeObject] at h
          split at h <;> cases h
        · exact absurd h beginKey_ne_trailing
  | ⟨outer, .nextKey properties seen⟩ =>
      simp only [step] at h
      split at h
      · cases h
      · split at h
        · cases h
        · exact absurd h beginKey_ne_trailing
  | ⟨outer, .key properties seen t⟩ =>
      simp only [step] at h
      split at h
      · cases h
      · exact absurd h endKey_ne_trailing
      · exact absurd h endKey_ne_trailing
      · cases h
  | ⟨outer, .colon properties seen name node⟩ =>
      simp only [step] at h
      split at h
      · cases h
      · split at h
        · split at h <;> cases h
        · cases h

/-! ## Walks through the root value -/

/-- The skip goes on with the walk, up to where the root value ends. -/
theorem Follows.skipFrom {k k' : Option Skip} {b : UInt8} (h : Follows k k' b) {p : Position}
    {rest : List UInt8} {c : Cursor} (hc : Walk.skipFrom k' (p.after b) rest = .ok c) :
    ∃ c', Walk.skipFrom k p (b :: rest) = .ok c' ∧ afterRoot c' = afterRoot c := by
  cases k with
  | none =>
      cases k' with
      | none =>
          cases hc
          exact ⟨_, rfl, afterRoot_blank h p rest⟩
      | some k' => exact h.elim
  | some k =>
      rw [Walk.skipFrom, Skip.runFrom_cons]
      cases k' with
      | none =>
          cases hc
          rcases h with h | ⟨h, hb⟩
          · rw [h]
            exact ⟨_, rfl, rfl⟩
          · rw [h]
            exact ⟨_, rfl, afterRoot_blank hb p rest⟩
      | some k' =>
          rw [show k.step b = _ from h]
          exact ⟨c, hc, rfl⟩

theorem Trails.skipFrom {k : Option Skip} {b : UInt8} (h : Trails k b) (p : Position)
    (rest : List UInt8) : Walk.skipFrom k p (b :: rest) = .ok ⟨p, b :: rest⟩ := by
  cases k with
  | none => rfl
  | some k => rw [Walk.skipFrom, Skip.runFrom_cons, h.2 k rfl]

/-- The end of the text is no trailing data. -/
theorem finish_of_readsRoot {s : State} {p : Position} (h : ReadsRoot (finish s p)) :
    finish s p = .ok () := by
  have hf := finishes s p
  generalize finish s p = result at hf h
  cases hf with
  | ended | skipped => rfl
  | judged | misplaced | malformed => cases h

/-- A walk through the whole root value reads what its skip reads, and what comes after
that decides its result. -/
theorem skipFrom_of_readsRoot {mode : Mode} {s : State} {p : Position} {bytes : List UInt8}
    (h : ReadsRoot (run mode s p bytes)) :
    ∃ c, skipFrom (erase s) p bytes = .ok c ∧ run mode s p bytes = afterRoot c := by
  induction bytes generalizing s p with
  | nil =>
      have hok := finish_of_readsRoot h
      exact ⟨⟨p, []⟩, skipFrom_of_finish hok, hok⟩
  | cons b bytes ih =>
      rw [run] at h ⊢
      cases hs : step mode s p b with
      | more s' =>
          rw [hs] at h
          obtain ⟨c, hc, hresult⟩ := ih h
          obtain ⟨c', hc', hafter⟩ := (follows_step hs).skipFrom hc
          exact ⟨c', hc', hresult.trans hafter.symm⟩
      | trailing =>
          have htrails := trails_of_step hs
          exact ⟨_, htrails.skipFrom p bytes, (afterRoot_not_blank htrails.1 p bytes).symm⟩
      | fault _ _ | breach _ _ =>
          rw [hs] at h
          cases h

/-- A walk through the whole root value has read one text, with blanks before it. -/
theorem exists_text_of_readsRoot {mode : Mode} {t : Schema} {p : Position}
    {document : List UInt8} (h : ReadsRoot (run mode ⟨[], .value t⟩ p document)) :
    ∃ w v x rest, document = w ++ (x ++ rest) ∧ Blanks w ∧ Json.Text v x ∧
      Skip.start.runFrom p document = .ok ⟨p.afterAll (w ++ x), rest⟩ ∧
      run mode ⟨[], .value t⟩ p document = afterRoot ⟨p.afterAll (w ++ x), rest⟩ := by
  obtain ⟨c, hc, hresult⟩ := skipFrom_of_readsRoot h
  obtain ⟨w, v, x, hx, hw, hv⟩ := Skip.exists_text_of_run hc
  obtain ⟨xs, hxs, hposition⟩ := Json.exists_read_of_drive (Skip.runFrom_eq_ok.mp hc)
  have hread : xs = w ++ x := by
    rw [hx, ← List.append_assoc] at hxs
    exact (List.append_cancel_right hxs).symm
  have hcursor : c = ⟨p.afterAll (w ++ x), c.rest⟩ := by rw [← hread, ← hposition]
  rw [hcursor] at hc hresult
  exact ⟨w, v, x, c.rest, hx, hw, hv, hc, hresult⟩

/-- A document that a walk accepts is one value with blanks around it. -/
theorem written_of_run {mode : Mode} {t : Schema} {p : Position} {document : List UInt8}
    (h : run mode ⟨[], .value t⟩ p document = .ok ()) : ∃ v, Json.Written v document := by
  have hreads : ReadsRoot (run mode ⟨[], .value t⟩ p document) := h ▸ .accepts
  obtain ⟨w, v, x, rest, hx, hw, hv, -, hresult⟩ := exists_text_of_readsRoot hreads
  have hblanks : Blanks rest := (afterRoot_eq_ok_iff _).mp (hresult.symm.trans h)
  exact ⟨v, w, x, rest, hx, hw, hblanks, hv⟩

end Walk

open Walk (ReadsRoot afterRoot)

theorem valid_eq_true_iff (t : Schema) (document : List UInt8) :
    valid t document = true ↔ check t document .lenient = .ok () := by
  rw [valid, accepts]
  cases check t document .lenient <;> simp

theorem run_of_readsRoot_check {t : Schema} {document : List UInt8} {mode : Mode}
    (hblank : isBlankDocument document = false) (h : ReadsRoot (check t document mode)) :
    check t document mode = Walk.run mode ⟨[], .value t⟩ .start document := by
  rw [check, hblank] at h ⊢
  simp only [Bool.false_eq_true, if_false] at h ⊢
  split at h
  · cases h
  · next hm => exact if_neg hm

/-- All walks through the whole root value of a document give the same result.  It is decided
by what comes after the one value that they all read. -/
theorem root_ends_alike {t₁ t₂ : Schema} {m₁ m₂ : Mode} {document : List UInt8}
    (h₁ : ReadsRoot (check t₁ document m₁)) (h₂ : ReadsRoot (check t₂ document m₂)) :
    check t₁ document m₁ = check t₂ document m₂ ∧
      (isBlankDocument document = true ∨
        ∃ w v x rest, document = w ++ (x ++ rest) ∧ Blanks w ∧ Json.Text v x ∧
          check t₁ document m₁ = afterRoot ⟨Position.start.afterAll (w ++ x), rest⟩ ∧
          check t₂ document m₂ = afterRoot ⟨Position.start.afterAll (w ++ x), rest⟩) := by
  cases hblank : isBlankDocument document with
  | true =>
      have hok : ∀ {t m}, ReadsRoot (check t document m) → check t document m = .ok () := by
        intro t m h
        rw [check, if_pos hblank] at h ⊢
        split at h
        next ho => exact if_pos ho
        next => cases h
      exact ⟨(hok h₁).trans (hok h₂).symm, Or.inl rfl⟩
  | false =>
      have hrun₁ := run_of_readsRoot_check hblank h₁
      have hrun₂ := run_of_readsRoot_check hblank h₂
      rw [hrun₁] at h₁ ⊢
      rw [hrun₂] at h₂ ⊢
      obtain ⟨w, v, x, rest, hx, hw, hv, hskip, hresult₁⟩ := Walk.exists_text_of_readsRoot h₁
      obtain ⟨c, hc, hresult₂⟩ := Walk.skipFrom_of_readsRoot h₂
      obtain rfl := Except.ok.inj (hskip.symm.trans hc)
      exact ⟨hresult₁.trans hresult₂.symm,
        Or.inr ⟨w, v, x, rest, hx, hw, hv, hresult₁, hresult₂⟩⟩

/-- One walk skips the root value and the other visits it, and both stop at its brace. -/
theorem root_ends_alike_nested :
    let document := Utf8.encode "\x7b\"a\":[\x7b\"b\":null\x7d]\x7d \n5"
    let visited := Schema.object [("a", .array (.object [("b", .null)]))]
    ReadsRoot (check .any document .lenient) ∧
      check visited document .strict = .error (.trailingData ⟨2, 1⟩) ∧
      check .any document .lenient = check visited document .strict := by
  intro document visited
  have hskipped : check .any document .lenient = .error (.trailingData ⟨2, 1⟩) := by
    decide +kernel
  have hvisited : check visited document .strict = .error (.trailingData ⟨2, 1⟩) := by
    decide +kernel
  have h₁ : ReadsRoot (check .any document .lenient) := hskipped ▸ ReadsRoot.trails
  have h₂ : ReadsRoot (check visited document .strict) := hvisited ▸ ReadsRoot.trails
  exact ⟨h₁, hvisited, (root_ends_alike h₁ h₂).1⟩

end Jstn
