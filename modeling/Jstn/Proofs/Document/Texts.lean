import Jstn.Proofs.Document.Entries
import Jstn.Proofs.Json.Encoding

/-!
# Texts settled by a walk

A walk settles the text of every value at every node, by induction on the text
(`settled_text`), with one lemma for each kind of container.  The text of a container is
settled by its entries if it is entered, and else by how it begins.

From the root it settles a whole document (`settles_written`).
-/

namespace Jstn

open Json (Blanks Byte.isBlank Byte.quote Byte.openBracket Byte.closeBracket Byte.openBrace
  Byte.closeBrace Ends Item Member Position Skip Text Value moreItems moreMembers)

namespace Walk

variable {mode : Mode} {outer : List Frame} {t : Schema}

/-! ## Values -/

/-- A value that does not belong to a container of the node's kind. -/
theorem settles_unentered {v : Value} {x rest : List UInt8} (hv : Text v x) (hr : Ends rest)
    (hm : refuses mode t = false) (hk : v.kind = t.kind → ¬(t.kind = .array ∨ t.kind = .object)) :
    Settles mode (Fits mode outer.length t v) (Found mode outer t v) (Stuck mode outer.length t v x)
      ⟨outer, .value t⟩ x rest ⟨outer, .ended⟩ := by
  by_cases ht : t.kind = .array ∨ t.kind = .object
  · exact settles_misplaced hv hr ht fun h => hk h ht
  · exact settles_skipped hv hr hm ht

/-- A bracket that opens one container too many. -/
theorem settles_tooDeep {v : Value} {b : UInt8} {xs rest : List UInt8} {s' : State}
    (hl : ¬outer.length < maxOpen) (hv : v.kind = .array ∨ v.kind = .object)
    (ht : t.kind = .array ∨ t.kind = .object) (hc : b = Byte.openBracket ∨ b = Byte.openBrace) :
    Settles mode (Fits mode outer.length t v) (Found mode outer t v)
      (Stuck mode outer.length t v (b :: xs)) ⟨outer, .value t⟩ (b :: xs) rest s' := by
  intro p
  have hvisit : step mode ⟨outer, .value t⟩ p b = .fault .tooDeep (p.after b) := by
    rw [step_visit ht (by rcases hc with rfl | rfl <;> rfl) p]
    rcases hc with rfl | rfl <;> exact if_pos (Nat.le_of_not_lt hl)
  rw [List.cons_append, run, hvisit]
  exact .sticks (.tooDeep (.root ht hv) (Nat.lt_succ_of_le (Nat.le_of_not_lt hl)))

/-- The bracket that opens an array at an array node. -/
theorem step_openBracket (ht : t.kind = .array) (hl : outer.length < maxOpen)
    (p : Position) :
    step mode ⟨outer, .value t⟩ p Byte.openBracket = .more ⟨outer, .firstItem t.items⟩ := by
  simp only [step, beginValue, beginVisit, ht, if_neg (Nat.not_le.mpr hl)]
  rfl

/-- The bracket that opens an object at an object node. -/
theorem step_openBrace (ht : t.kind = .object) (hl : outer.length < maxOpen)
    (p : Position) :
    step mode ⟨outer, .value t⟩ p Byte.openBrace = .more ⟨outer, .firstKey t.properties⟩ := by
  simp only [step, beginValue, beginVisit, ht, if_neg (Nat.not_le.mpr hl)]
  rfl

/-- A value that is no container. -/
theorem settled_scalar {v : Value} {x : List UInt8} (hv : Text v x) (ha : v.kind ≠ .array)
    (ho : v.kind ≠ .object) : Settled mode v x := by
  intro outer t rest hr hm
  refine settles_unentered hv hr hm fun h => ?_
  rw [← h]
  exact not_or.mpr ⟨ha, ho⟩

theorem settled_emptyArray {w : List UInt8} (hw : Blanks w) :
    Settled mode (.array []) (Byte.openBracket :: (w ++ [Byte.closeBracket])) := by
  intro outer t rest hr hm
  by_cases ht : t.kind = .array
  · by_cases hl : outer.length < maxOpen
    · exact .cons (step_openBracket ht hl)
        (.blanks rfl hw (.cons (fun _ => rfl) (.refl (fits_array ht hl nofun))))
    · exact settles_tooDeep hl (Or.inl rfl) (Or.inl ht) (Or.inl rfl)
  · exact settles_unentered (.emptyArray hw) hr hm fun h => absurd h.symm ht

theorem settled_array {first : Item} {more : List Item}
    (hb : ∀ i ∈ first :: more, Blanks i.before ∧ Blanks i.after)
    (hv : ∀ i ∈ first :: more, Text i.value i.text)
    (hd : ∀ i ∈ first :: more, Settled mode i.value i.text) :
    Settled mode (.array ((first :: more).map Item.value))
      (Byte.openBracket :: (first.bytes ++ (moreItems more ++ [Byte.closeBracket]))) := by
  intro outer t rest hr hm
  by_cases ht : t.kind = .array
  · by_cases hl : outer.length < maxOpen
    · have hstuck : ∀ i ∈ first :: more, ItemStuck mode outer.length t i.value i.text →
          Stuck mode outer.length t (.array ((first :: more).map Item.value))
            (Byte.openBracket :: (first.bytes ++ (moreItems more ++ [Byte.closeBracket]))) :=
        fun i hi => stuck_item ht (List.mem_map_of_mem hi) fun hx => Json.valid_array hb hx i hi
      obtain ⟨⟨hbefore, hafter⟩, hbmore⟩ := List.forall_mem_cons.mp hb
      obtain ⟨hvi, hvmore⟩ := List.forall_mem_cons.mp hv
      obtain ⟨hdi, hdmore⟩ := List.forall_mem_cons.mp hd
      obtain ⟨hstucki, hstuckmore⟩ := List.forall_mem_cons.mp hstuck
      have hstep : ∀ p b, Byte.isBlank b = false → b ≠ Byte.closeBracket →
          step mode ⟨outer, .firstItem t.items⟩ p b
            = beginItem mode outer t.items ([] : List Value).length p b := by
        intro p b hblank hc
        simp only [step, hblank, Bool.false_eq_true, if_false]
        exact if_neg hc
      have hends : Ends (first.after ++ (moreItems more ++ [Byte.closeBracket])) :=
        Json.ends_after_items hafter more []
      have hitem := settles_item (more.map Item.value) ht hstep (List.forall_mem_nil _) hvi hdi
        hstucki (Json.ends_append hends (by simp) rest)
      have hall := Settles.cons (step_openBracket ht hl) (.blanks rfl hbefore
        (hitem.append fun hfits => settles_moreItems ht hl rfl
          (List.forall_mem_singleton.mpr hfits) hbmore hvmore hdmore hstuckmore hafter rest))
      simp only [Item.bytes, List.append_assoc] at hall ⊢
      exact hall
    · exact settles_tooDeep hl (Or.inl rfl) (Or.inl ht) (Or.inl rfl)
  · exact settles_unentered (.array hb hv) hr hm fun h => absurd h.symm ht

theorem settled_emptyObject {w : List UInt8} (hw : Blanks w) :
    Settled mode (.object []) (Byte.openBrace :: (w ++ [Byte.closeBrace])) := by
  intro outer t rest hr hm
  by_cases ht : t.kind = .object
  · by_cases hl : outer.length < maxOpen
    · exact .cons (step_openBrace ht hl)
        (settles_closeObject ht hl nofun (by simp) rfl (fun _ => rfl) hw)
    · exact settles_tooDeep hl (Or.inr rfl) (Or.inr ht) (Or.inr rfl)
  · exact settles_unentered (.emptyObject hw) hr hm fun h => absurd h.symm ht

theorem settled_object {first : Member} {more : List Member}
    (hk : ∀ m ∈ first :: more,
      Blanks m.before ∧ Blanks m.after ∧ Json.Literal.Denotes m.body m.key)
    (hb : ∀ m ∈ first :: more, Blanks m.item.before ∧ Blanks m.item.after)
    (hv : ∀ m ∈ first :: more, Text m.item.value m.item.text)
    (hd : ∀ m ∈ first :: more, Settled mode m.item.value m.item.text) :
    Settled mode (.object ((first :: more).map Member.entry))
      (Byte.openBrace :: (first.bytes ++ (moreMembers more ++ [Byte.closeBrace]))) := by
  intro outer t rest hr hm
  by_cases ht : t.kind = .object
  · by_cases hl : outer.length < maxOpen
    · have hstuck : ∀ m ∈ first :: more, MemberStuck mode outer.length t.properties m →
          Stuck mode outer.length t (.object ((first :: more).map Member.entry))
            (Byte.openBrace :: (first.bytes ++ (moreMembers more ++ [Byte.closeBrace]))) :=
        fun m hm => stuck_member ht (List.mem_map_of_mem hm) fun hx =>
          Json.valid_object hk hb hx m hm
      obtain ⟨hkm, hkmore⟩ := List.forall_mem_cons.mp hk
      obtain ⟨⟨hbefore, hafter⟩, hbmore⟩ := List.forall_mem_cons.mp hb
      obtain ⟨hdm, hdmore⟩ := List.forall_mem_cons.mp hd
      obtain ⟨hstuckm, hstuckmore⟩ := List.forall_mem_cons.mp hstuck
      have hquote : ∀ p, step mode ⟨outer, .firstKey t.properties⟩ p Byte.quote
          = .more ⟨outer, .key t.properties [] .start⟩ := by
        intro p
        rfl
      have hends : Ends (first.item.after ++ (moreMembers more ++ [Byte.closeBrace])) :=
        Json.ends_after_members hafter more []
      have hnone : ∀ e ∈ ([] : List (Option String × Value)),
          MemberFits mode outer.length t.properties e := nofun
      have hunseen : ∀ other, other ∈ ([] : List String) ↔
          ∃ e ∈ ([] : List (Option String × Value)), e.1 = some other := by simp
      have hmember := settles_member (more.map Member.entry) ht rfl hquote hnone hkm hbefore
        hdm hstuckm (Json.ends_append hends (by simp) rest)
      have hall := Settles.cons (step_openBrace ht hl) (hmember.append fun hfits =>
        settles_moreMembers ht hl (List.forall_mem_singleton.mpr hfits)
          (mem_seen_append hunseen hfits) hkmore hbmore hdmore hstuckmore hafter rest)
      simp only [List.append_assoc, List.cons_append] at hall
      simp only [Member.bytes, Json.Literal.quoted, Item.bytes, List.cons_append, List.nil_append,
        List.append_assoc] at hall ⊢
      exact hall
    · exact settles_tooDeep hl (Or.inr rfl) (Or.inr ht) (Or.inr rfl)
  · exact settles_unentered (.object hk hb hv) hr hm fun h => absurd h.symm ht

/-- A walk settles the text of every value. -/
theorem settled_text {v : Value} {x : List UInt8} (hv : Text v x) : Settled mode v x := by
  induction hv with
  | null => exact settled_scalar .null nofun nofun
  | true => exact settled_scalar .true nofun nofun
  | false => exact settled_scalar .false nofun nofun
  | number hw => exact settled_scalar (.number hw) nofun nofun
  | string hd => exact settled_scalar (.string hd) nofun nofun
  | emptyArray hw => exact settled_emptyArray hw
  | array hb hv ih => exact settled_array hb hv ih
  | emptyObject hw => exact settled_emptyObject hw
  | object hk hb hv ih => exact settled_object hk hb hv ih

/-! ## Documents -/

/-- A walk from the root settles a document that is one value. -/
theorem settles_written {v : Value} {document : List UInt8} (hv : Json.Written v document)
    (hm : refuses mode t = false) :
    Outcome (Fits mode 0 t v) (Found mode [] t v) (Stuck mode 0 t v document) (.ok ())
      (run mode ⟨[], .value t⟩ .start document) := by
  obtain ⟨before, text, after, rfl, hbefore, hafter, htext⟩ := hv
  have hends : Ends after := by
    have h := Json.ends_blanks hafter Json.ends_nil
    rwa [List.append_nil] at h
  have hsettled : Settled mode v text := settled_text htext
  have h := Settles.blanks rfl hbefore (hsettled [] t after hends hm) .start
  rw [run_ended_blanks hafter, List.append_assoc] at h
  refine h.imp id id fun hstuck => ?_
  cases hstuck with
  | undecodable h hn => exact .undecodable h hn
  | notUtf8 h => exact .notUtf8 fun hx => h (Json.valid_of_written hbefore hafter hx)
  | tooDeep hn hl => exact .tooDeep hn hl

end Walk

/-- The test for a blank document finds those that are blank. -/
theorem isBlankDocument_iff {document : List UInt8} :
    isBlankDocument document = true ↔ Json.Blanks document := List.all_eq_true

theorem not_blank_of_written {v : Value} {document : List UInt8} (h : Json.Written v document) :
    isBlankDocument document = false := by
  obtain ⟨before, text, after, rfl, -, -, hv⟩ := h
  obtain ⟨b, xs, rfl, hb, -⟩ := Skip.text_head hv
  simp [isBlankDocument, hb]

end Jstn
