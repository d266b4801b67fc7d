import Jstn.Proofs.Json.Skip

/-!
# Skipping runs over every text

Skipping runs over a text of the grammar up to the byte after it, whatever that is, as
long as it ends a number (`run_text`).  This is an induction on the text.
-/

namespace Jstn

namespace Json

namespace Skip

/-- Skipping takes these bytes as a value, whatever ends it. -/
def Takes (x : List UInt8) : Prop :=
  ∀ p rest, Ends rest → ∃ q, runFrom start p (x ++ rest) = .ok ⟨q, rest⟩

theorem takes_word {b d : UInt8} {due : List UInt8}
    (hb : step start b = .more ⟨[], .word (d :: due)⟩) : Takes (b :: d :: due) := by
  intro p rest _
  refine ⟨(p.after b).afterAll (d :: due), ?_⟩
  rw [List.cons_append, runFrom_cons, hb]
  simp only
  rw [runFrom_eq_ok, drive_word, Word.drive_due]

/-- An entry is run over up to the blanks after it. -/
theorem run_item {i : Item} {rest : List UInt8} (k : Container) (p : Position)
    (hb : Blanks i.before) (ht : Takes i.text) (hr : Ends (i.after ++ rest)) :
    ∃ q, runFrom ⟨[k], .value⟩ p (i.bytes ++ rest)
      = runFrom ⟨[], .after k⟩ q (i.after ++ rest) := by
  obtain ⟨q, hq⟩ := ht (p.afterAll i.before) (i.after ++ rest) hr
  refine ⟨q, ?_⟩
  rw [Item.bytes, List.append_assoc, List.append_assoc, runFrom_blanks hb,
    ← List.nil_append [k], runFrom_append [] [] k, show (⟨[], .value⟩ : Skip) = start from rfl, hq]

/-- A key is run over up to the item after the colon. -/
theorem run_key {m : Member} (p : Position) (rest : List UInt8) (hb : Blanks m.before)
    (ha : Blanks m.after) (hd : Literal.Body m.body) :
    ∃ q, runFrom ⟨[], .key⟩ p (m.bytes ++ rest)
      = runFrom ⟨[.object], .value⟩ q (m.item.bytes ++ rest) := by
  have hquote : step ⟨[], .key⟩ Byte.quote = .more ⟨[], .keyText .plain⟩ := rfl
  have hcolon : step ⟨[], .colon⟩ Byte.colon = .more ⟨[.object], .value⟩ := rfl
  let q := (((p.afterAll m.before).after Byte.quote).afterAll m.body).after Byte.quote
  refine ⟨(q.afterAll m.after).after Byte.colon, ?_⟩
  simp only [Member.bytes, Literal.quoted, List.append_assoc, List.cons_append, List.nil_append]
  rw [runFrom_blanks hb, runFrom_cons, hquote]
  simp only
  rw [runFrom_keyText, Literal.drive_skip_of_body hd]
  simp only
  rw [runFrom_blanks ha, runFrom_cons, hcolon]

theorem run_moreItems {more : List Item} (hb : ∀ i ∈ more, Blanks i.before ∧ Blanks i.after)
    (ht : ∀ i ∈ more, Takes i.text) {w : List UInt8} (hw : Blanks w) (p : Position)
    (rest : List UInt8) :
    ∃ q, runFrom ⟨[], .after .array⟩ p (w ++ (moreItems more ++ Byte.closeBracket :: rest))
      = .ok ⟨q, rest⟩ := by
  induction more generalizing w p with
  | nil =>
      refine ⟨(p.afterAll w).after Byte.closeBracket, ?_⟩
      rw [runFrom_blanks hw]
      rfl
  | cons i more ih =>
      obtain ⟨⟨hbefore, hafter⟩, hb⟩ := List.forall_mem_cons.mp hb
      obtain ⟨hti, ht⟩ := List.forall_mem_cons.mp ht
      have hcomma : step ⟨[], .after .array⟩ Byte.comma = .more ⟨[.array], .value⟩ := rfl
      have hends : Ends (i.after ++ (moreItems more ++ Byte.closeBracket :: rest)) :=
        ends_after_items hafter more rest
      obtain ⟨q, hq⟩ := run_item .array ((p.afterAll w).after Byte.comma) hbefore hti hends
      obtain ⟨r, hr⟩ := ih hb ht hafter q
      refine ⟨r, ?_⟩
      simp only [moreItems, List.flatMap_cons, List.cons_append, List.append_assoc]
      rw [runFrom_blanks hw, runFrom_cons, hcomma]
      simp only
      exact hq.trans hr

theorem run_moreMembers {more : List Member}
    (hk : ∀ m ∈ more, Blanks m.before ∧ Blanks m.after ∧ Literal.Denotes m.body m.key)
    (hb : ∀ m ∈ more, Blanks m.item.before ∧ Blanks m.item.after)
    (ht : ∀ m ∈ more, Takes m.item.text) {w : List UInt8} (hw : Blanks w) (p : Position)
    (rest : List UInt8) :
    ∃ q, runFrom ⟨[], .after .object⟩ p (w ++ (moreMembers more ++ Byte.closeBrace :: rest))
      = .ok ⟨q, rest⟩ := by
  induction more generalizing w p with
  | nil =>
      refine ⟨(p.afterAll w).after Byte.closeBrace, ?_⟩
      rw [runFrom_blanks hw]
      rfl
  | cons m more ih =>
      obtain ⟨⟨hbefore, hafter, hd⟩, hk⟩ := List.forall_mem_cons.mp hk
      obtain ⟨⟨hibefore, hiafter⟩, hb⟩ := List.forall_mem_cons.mp hb
      obtain ⟨hti, ht⟩ := List.forall_mem_cons.mp ht
      have hcomma : step ⟨[], .after .object⟩ Byte.comma = .more ⟨[], .key⟩ := rfl
      have hends : Ends (m.item.after ++ (moreMembers more ++ Byte.closeBrace :: rest)) :=
        ends_after_members hiafter more rest
      obtain ⟨q, hq⟩ := run_key ((p.afterAll w).after Byte.comma)
        (moreMembers more ++ Byte.closeBrace :: rest) hbefore hafter hd.1
      obtain ⟨r, hr⟩ := run_item .object q hibefore hti hends
      obtain ⟨t, htail⟩ := ih hk hb ht hiafter r
      refine ⟨t, ?_⟩
      simp only [moreMembers, List.flatMap_cons, List.cons_append, List.append_assoc]
      rw [runFrom_blanks hw, runFrom_cons, hcomma]
      simp only
      exact hq.trans (hr.trans htail)

/-- An item that may also be the end is read as an item. -/
theorem run_firstItem {i : Item} (p : Position) (rest : List UInt8) (hb : Blanks i.before)
    (hv : Text i.value i.text) :
    runFrom ⟨[], .first .array⟩ p (i.bytes ++ rest)
      = runFrom ⟨[.array], .value⟩ p (i.bytes ++ rest) := by
  obtain ⟨b, xs, hx, hblank, hclose⟩ := text_head hv
  have hstep : step ⟨[], .first .array⟩ b = step ⟨[.array], .value⟩ b := by
    have hclosing : b ≠ Container.array.closing := hclose
    simp only [step, stepFirst, hblank, hclosing, if_false, Bool.false_eq_true]
  rw [Item.bytes, List.append_assoc, runFrom_blanks hb, runFrom_blanks hb, hx]
  simp only [List.cons_append]
  rw [runFrom_cons, runFrom_cons, hstep]

/-- A member that may also be the end is read as a member. -/
theorem run_firstMember {m : Member} (p : Position) (rest : List UInt8) (hb : Blanks m.before) :
    runFrom ⟨[], .first .object⟩ p (m.bytes ++ rest) = runFrom ⟨[], .key⟩ p (m.bytes ++ rest) := by
  rw [Member.bytes, List.append_assoc, runFrom_blanks hb, runFrom_blanks hb]
  rfl

theorem takes_text {v : Value} {x : List UInt8} (h : Text v x) : Takes x := by
  induction h with
  | null => exact takes_word rfl
  | true => exact takes_word rfl
  | false => exact takes_word rfl
  | number hw =>
      intro p rest hr
      obtain ⟨b, xs, phase, rfl, hb, hx⟩ := Number.rest_of_written hw
      refine ⟨(p.after b).afterAll xs, ?_⟩
      rw [List.cons_append, runFrom_cons, show step start b = _ from step_number hb []]
      simp only
      rw [runFrom_eq_ok, drive_number, Number.Phase.drive_of_rest _ hx hr]
  | @string body _ hd =>
      intro p rest _
      have hquote : step start Byte.quote = .more ⟨[], .string .plain⟩ := rfl
      refine ⟨((p.after Byte.quote).afterAll body).after Byte.quote, ?_⟩
      simp only [Literal.quoted, List.cons_append, List.append_assoc, List.nil_append]
      rw [runFrom_cons, hquote]
      simp only
      rw [runFrom_eq_ok, drive_string, Literal.drive_skip_of_body hd.1]
  | @emptyArray w hw =>
      intro p rest _
      have hopen : step start Byte.openBracket = .more ⟨[], .first .array⟩ := rfl
      refine ⟨((p.after Byte.openBracket).afterAll w).after Byte.closeBracket, ?_⟩
      simp only [List.cons_append, List.append_assoc, List.nil_append]
      rw [runFrom_cons, hopen]
      simp only
      rw [runFrom_blanks hw]
      rfl
  | @array first more hb hv ih =>
      intro p rest _
      have hopen : step start Byte.openBracket = .more ⟨[], .first .array⟩ := rfl
      obtain ⟨⟨hbefore, hafter⟩, hb⟩ := List.forall_mem_cons.mp hb
      obtain ⟨hvi, -⟩ := List.forall_mem_cons.mp hv
      obtain ⟨hti, ht⟩ := List.forall_mem_cons.mp ih
      have hends : Ends (first.after ++ (moreItems more ++ Byte.closeBracket :: rest)) :=
        ends_after_items hafter more rest
      obtain ⟨q, hq⟩ := run_item .array (p.after Byte.openBracket) hbefore hti hends
      obtain ⟨r, hr⟩ := run_moreItems hb ht hafter q rest
      refine ⟨r, ?_⟩
      simp only [List.cons_append, List.append_assoc, List.nil_append]
      rw [runFrom_cons, hopen]
      simp only
      rw [run_firstItem _ _ hbefore hvi, hq, hr]
  | @emptyObject w hw =>
      intro p rest _
      have hopen : step start Byte.openBrace = .more ⟨[], .first .object⟩ := rfl
      refine ⟨((p.after Byte.openBrace).afterAll w).after Byte.closeBrace, ?_⟩
      simp only [List.cons_append, List.append_assoc, List.nil_append]
      rw [runFrom_cons, hopen]
      simp only
      rw [runFrom_blanks hw]
      rfl
  | @object first more hk hb hv ih =>
      intro p rest _
      have hopen : step start Byte.openBrace = .more ⟨[], .first .object⟩ := rfl
      obtain ⟨⟨hbefore, hafter, hd⟩, hk⟩ := List.forall_mem_cons.mp hk
      obtain ⟨⟨hibefore, hiafter⟩, hb⟩ := List.forall_mem_cons.mp hb
      obtain ⟨hti, ht⟩ := List.forall_mem_cons.mp ih
      have hends : Ends (first.item.after ++ (moreMembers more ++ Byte.closeBrace :: rest)) :=
        ends_after_members hiafter more rest
      obtain ⟨q, hq⟩ := run_key (p.after Byte.openBrace)
        (moreMembers more ++ Byte.closeBrace :: rest) hbefore hafter hd.1
      obtain ⟨r, hr⟩ := run_item .object q hibefore hti hends
      obtain ⟨t, htail⟩ := run_moreMembers hk hb ht hiafter r rest
      refine ⟨t, ?_⟩
      simp only [List.cons_append, List.append_assoc, List.nil_append]
      rw [runFrom_cons, hopen]
      simp only
      rw [run_firstMember _ _ hbefore, hq, hr, htail]

/-- Skipping runs over a text and stops after it. -/
theorem run_text {v : Value} {x rest : List UInt8} (h : Text v x) (hr : Ends rest)
    (p : Position) : runFrom start p (x ++ rest) = .ok ⟨p.afterAll x, rest⟩ := by
  obtain ⟨q, hq⟩ := takes_text h p rest hr
  obtain ⟨xs, hx, hp⟩ := exists_read_of_drive (runFrom_eq_ok.mp hq)
  obtain rfl : x = xs := List.append_cancel_right hx
  rw [hq, show q = p.afterAll x from hp]

end Skip

end Json

end Jstn
