import Jstn.Proofs.Json.Skip

/-!
# Skipping runs over nothing but texts

A run that succeeds has run over a text of the grammar (`exists_text_of_run`).  This is an
induction on how many bytes are left, since the values inside a container are shorter than
it is (`TextUpTo`).
-/

namespace Jstn

namespace Json

namespace Skip

/-- What is due once a container goes on: an item, or a key. -/
def entry : Container → Skip
  | .array => ⟨[.array], .value⟩
  | .object => ⟨[], .key⟩

/-- What is due after the first byte of a value. -/
theorem begin_of_run {outer : List Container} {p : Position} {b : UInt8} {rest : List UInt8}
    {c : Cursor} (hb : Byte.isBlank b = false)
    (h : runFrom ⟨outer, .value⟩ p (b :: rest) = .ok c) :
    (b = Byte.quote ∧ runFrom ⟨outer, .string .plain⟩ (p.after b) rest = .ok c) ∨
    (∃ due, Word.ofFirst? b = some due ∧
      runFrom ⟨outer, .word due⟩ (p.after b) rest = .ok c) ∨
    (∃ phase, Number.Phase.ofFirst? b = some phase ∧
      runFrom ⟨outer, .number phase⟩ (p.after b) rest = .ok c) ∨
    (∃ k, Container.ofOpening? b = some k ∧
      runFrom ⟨outer, .first k⟩ (p.after b) rest = .ok c) := by
  rw [runFrom_cons, step, stepValue, if_neg (by simp [hb])] at h
  by_cases hq : b = Byte.quote
  · rw [if_pos hq] at h
    exact Or.inl ⟨hq, h⟩
  · rw [if_neg hq] at h
    right
    cases hw : Word.ofFirst? b with
    | some due =>
        rw [hw] at h
        exact Or.inl ⟨due, rfl, h⟩
    | none =>
        rw [hw] at h
        right
        cases hp : Number.Phase.ofFirst? b with
        | some phase =>
            rw [hp] at h
            exact Or.inl ⟨phase, rfl, h⟩
        | none =>
            rw [hp] at h
            right
            cases hk : Container.ofOpening? b with
            | some k =>
                rw [hk] at h
                exact ⟨k, rfl, h⟩
            | none =>
                rw [hk] at h
                cases h

/-- A container that has been opened is empty, or an entry is due. -/
theorem first_of_run {k : Container} {p : Position} {bytes : List UInt8} {c : Cursor}
    (h : runFrom ⟨[], .first k⟩ p bytes = .ok c) :
    (∃ w, bytes = w ++ k.closing :: c.rest ∧ Blanks w) ∨
      ∃ q, runFrom (entry k) q bytes = .ok c := by
  obtain ⟨w, b, rest, rfl, hw, hb, h⟩ := exists_blanks_of_run h
  rw [runFrom_cons, step] at h
  simp only [stepFirst, hb, Bool.false_eq_true, if_false] at h
  by_cases hk : b = k.closing
  · rw [if_pos hk] at h
    cases h
    exact Or.inl ⟨w, by rw [hk], hw⟩
  · rw [if_neg hk] at h
    right
    refine ⟨p, ?_⟩
    cases k with
    | array =>
        rw [entry, runFrom_blanks hw, runFrom_cons]
        exact h
    | object =>
        rw [entry, runFrom_blanks hw, runFrom_cons]
        exact h

/-- After an entry a container ends, or a comma and another entry follow. -/
theorem after_of_run {k : Container} {p : Position} {bytes : List UInt8} {c : Cursor}
    (h : runFrom ⟨[], .after k⟩ p bytes = .ok c) :
    ∃ w b rest, bytes = w ++ b :: rest ∧ Blanks w ∧
      ((b = k.closing ∧ rest = c.rest) ∨
        (b = Byte.comma ∧ ∃ q, runFrom (entry k) q rest = .ok c)) := by
  obtain ⟨w, b, rest, rfl, hw, hb, h⟩ := exists_blanks_of_run h
  refine ⟨w, b, rest, rfl, hw, ?_⟩
  rw [runFrom_cons, step] at h
  simp only [stepAfter, hb, Bool.false_eq_true, if_false] at h
  by_cases hk : b = k.closing
  · rw [if_pos hk] at h
    cases h
    exact Or.inl ⟨hk, rfl⟩
  · rw [if_neg hk] at h
    by_cases hc : b = Byte.comma
    · rw [if_pos hc] at h
      right
      cases k with
      | array => exact ⟨hc, _, h⟩
      | object => exact ⟨hc, _, h⟩
    · rw [if_neg hc] at h
      cases h

/-- A key is read up to the item after the colon. -/
theorem key_of_run {p : Position} {bytes : List UInt8} {c : Cursor}
    (h : runFrom ⟨[], .key⟩ p bytes = .ok c) :
    ∃ w body w' rest q,
      bytes = w ++ (Literal.quoted body ++ (w' ++ Byte.colon :: rest)) ∧ Blanks w ∧ Blanks w' ∧
      Literal.Body body ∧ runFrom ⟨[.object], .value⟩ q rest = .ok c := by
  obtain ⟨w, b, rest, rfl, hw, hb, h⟩ := exists_blanks_of_run h
  rw [runFrom_cons, step] at h
  simp only [stepKey, hb, Bool.false_eq_true, if_false] at h
  by_cases hq : b = Byte.quote
  · rw [if_pos hq] at h
    simp only [runFrom_keyText] at h
    split at h
    next c' hd =>
      obtain ⟨body, hx, hbody⟩ := Literal.body_of_drive_skip Literal.Skip.inside_plain hd
      rw [List.nil_append] at hx
      obtain ⟨w', b', rest', hx', hw', hb', h⟩ := exists_blanks_of_run h
      rw [runFrom_cons, step] at h
      simp only [hb', Bool.false_eq_true, if_false] at h
      by_cases hc : b' = Byte.colon
      · rw [if_pos hc] at h
        refine ⟨w, body, w', rest', _, ?_, hw, hw', hbody, h⟩
        rw [hx, hq, hx', hc, Literal.quoted]
        simp
      · rw [if_neg hc] at h
        cases h
    next => cases h
  · rw [if_neg hq] at h
    cases h

/-- Runs over at most `n` bytes read a text. -/
def TextUpTo (n : Nat) : Prop :=
  ∀ p bytes c, bytes.length ≤ n → runFrom start p bytes = .ok c →
    ∃ w v x, bytes = w ++ (x ++ c.rest) ∧ Blanks w ∧ Text v x

/-- An item, and the rest of the run after it. -/
theorem item_of_run {n : Nat} (ih : TextUpTo n) {k : Container} {p : Position}
    {bytes : List UInt8} {c : Cursor} (hl : bytes.length ≤ n)
    (h : runFrom ⟨[k], .value⟩ p bytes = .ok c) :
    ∃ w v x rest q, bytes = w ++ (x ++ rest) ∧ rest.length < bytes.length ∧ Blanks w ∧
      Text v x ∧ runFrom ⟨[], .after k⟩ q rest = .ok c := by
  rw [← List.nil_append [k], runFrom_append [] [] k] at h
  split at h
  next c' hc =>
    obtain ⟨w, v, x, hx, hw, hv⟩ := ih p bytes c' hl hc
    refine ⟨w, v, x, c'.rest, c'.position, hx, ?_, hw, hv, h⟩
    obtain ⟨b, xs, rfl, -⟩ := text_head hv
    rw [hx, List.length_append, List.length_append, List.length_cons]
    omega
  next => cases h

/-- A member, and the rest of the run after it. -/
theorem member_of_run {n : Nat} (ih : TextUpTo n) {p : Position} {bytes : List UInt8}
    {c : Cursor} (hl : bytes.length ≤ n) (h : runFrom ⟨[], .key⟩ p bytes = .ok c) :
    ∃ w key body w' before v x rest q,
      bytes = w ++ (Literal.quoted body ++ (w' ++ Byte.colon :: (before ++ (x ++ rest)))) ∧
      rest.length < bytes.length ∧
      (Blanks w ∧ Blanks w' ∧ Literal.Denotes body key) ∧ Blanks before ∧ Text v x ∧
      runFrom ⟨[], .after .object⟩ q rest = .ok c := by
  obtain ⟨w, body, w', rest, q, hx, hw, hw', hbody, h⟩ := key_of_run h
  obtain ⟨key, hd⟩ := Literal.exists_denotes hbody
  have hlt : rest.length < bytes.length := by
    rw [hx]
    simp only [List.length_append, List.length_cons]
    omega
  obtain ⟨before, v, x, rest', q', hy, hlt', hb, hv, h⟩ := item_of_run ih (by omega) h
  exact ⟨w, key, body, w', before, v, x, rest', q', by rw [hx, hy], by omega, ⟨hw, hw', hd⟩, hb,
    hv, h⟩

/-- The items that a run reads after one of them. -/
theorem moreItems_of_run {n : Nat} (ih : TextUpTo n) {p : Position} {bytes : List UInt8}
    {c : Cursor} (hl : bytes.length ≤ n) (h : runFrom ⟨[], .after .array⟩ p bytes = .ok c) :
    ∃ w more, bytes = w ++ (moreItems more ++ Byte.closeBracket :: c.rest) ∧ Blanks w ∧
      ∀ i ∈ more, (Blanks i.before ∧ Blanks i.after) ∧ Text i.value i.text := by
  obtain ⟨w, b, rest, hx, hw, ⟨rfl, hr⟩ | ⟨rfl, q, h⟩⟩ := after_of_run h
  · exact ⟨w, [], by rw [hx, hr]; rfl, hw, nofun⟩
  · have hlt : rest.length < bytes.length := by
      rw [hx, List.length_append, List.length_cons]
      omega
    obtain ⟨before, v, x, rest', q', hy, hlt', hb, hv, h⟩ := item_of_run ih (by omega) h
    obtain ⟨after, more, hz, ha, hm⟩ := moreItems_of_run ih (by omega) h
    refine ⟨w, ⟨before, v, x, after⟩ :: more, ?_, hw,
      List.forall_mem_cons.mpr ⟨⟨⟨hb, ha⟩, hv⟩, hm⟩⟩
    rw [hx, hy, hz]
    simp [moreItems, Item.bytes]
termination_by bytes.length

/-- The members that a run reads after one of them. -/
theorem moreMembers_of_run {n : Nat} (ih : TextUpTo n) {p : Position} {bytes : List UInt8}
    {c : Cursor} (hl : bytes.length ≤ n) (h : runFrom ⟨[], .after .object⟩ p bytes = .ok c) :
    ∃ w more, bytes = w ++ (moreMembers more ++ Byte.closeBrace :: c.rest) ∧ Blanks w ∧
      ∀ m ∈ more, (Blanks m.before ∧ Blanks m.after ∧ Literal.Denotes m.body m.key) ∧
        (Blanks m.item.before ∧ Blanks m.item.after) ∧ Text m.item.value m.item.text := by
  obtain ⟨w, b, rest, hx, hw, ⟨rfl, hr⟩ | ⟨rfl, q, h⟩⟩ := after_of_run h
  · exact ⟨w, [], by rw [hx, hr]; rfl, hw, nofun⟩
  · have hlt : rest.length < bytes.length := by
      rw [hx, List.length_append, List.length_cons]
      omega
    obtain ⟨u, key, body, u', before, v, x, rest', q', hy, hlt', hk, hb, hv, h⟩ :=
      member_of_run ih (by omega) h
    obtain ⟨after, more, hz, ha, hm⟩ := moreMembers_of_run ih (by omega) h
    refine ⟨w, ⟨u, key, body, u', ⟨before, v, x, after⟩⟩ :: more, ?_, hw,
      List.forall_mem_cons.mpr ⟨⟨hk, ⟨hb, ha⟩, hv⟩, hm⟩⟩
    rw [hx, hy, hz]
    simp [moreMembers, Member.bytes, Item.bytes]
termination_by bytes.length

/-- A word is the text of null or of a truth value. -/
theorem text_of_word {b : UInt8} {due : List UInt8} (h : Word.ofFirst? b = some due) :
    due ≠ [] ∧ ∃ v, Text v (b :: due) := by
  rw [Word.ofFirst?] at h
  split at h
  next hb =>
    cases h
    exact ⟨List.cons_ne_nil _ _, .null, hb ▸ .null⟩
  next =>
    split at h
    next hb =>
      cases h
      exact ⟨List.cons_ne_nil _ _, .boolean true, hb ▸ .true⟩
    next =>
      split at h
      next hb =>
        cases h
        exact ⟨List.cons_ne_nil _ _, .boolean false, hb ▸ .false⟩
      next => cases h

/-- The text of an array whose opening bracket has been read. -/
theorem text_of_firstItem {n : Nat} (ih : TextUpTo n) {p : Position} {bytes : List UInt8}
    {c : Cursor} (hl : bytes.length ≤ n) (h : runFrom ⟨[], .first .array⟩ p bytes = .ok c) :
    ∃ v x, Byte.openBracket :: bytes = x ++ c.rest ∧ Text v x := by
  rcases first_of_run h with ⟨w, hx, hw⟩ | ⟨q, h⟩
  · exact ⟨_, _, by rw [hx]; simp [Container.closing], .emptyArray hw⟩
  · obtain ⟨before, v, x, rest, q', hx, hlt, hb, hv, h⟩ := item_of_run ih hl h
    obtain ⟨after, more, hy, ha, hm⟩ := moreItems_of_run ih (by omega) h
    let i : Item := ⟨before, v, x, after⟩
    have hall : ∀ j ∈ i :: more, _ := List.forall_mem_cons.mpr ⟨⟨⟨hb, ha⟩, hv⟩, hm⟩
    refine ⟨_, _, ?_, .array (fun j hj => (hall j hj).1) (fun j hj => (hall j hj).2)⟩
    rw [hx, hy]
    simp [i, Item.bytes]

/-- The text of an object whose opening bracket has been read. -/
theorem text_of_firstMember {n : Nat} (ih : TextUpTo n) {p : Position} {bytes : List UInt8}
    {c : Cursor} (hl : bytes.length ≤ n) (h : runFrom ⟨[], .first .object⟩ p bytes = .ok c) :
    ∃ v x, Byte.openBrace :: bytes = x ++ c.rest ∧ Text v x := by
  rcases first_of_run h with ⟨w, hx, hw⟩ | ⟨q, h⟩
  · exact ⟨_, _, by rw [hx]; simp [Container.closing], .emptyObject hw⟩
  · obtain ⟨w, key, body, w', before, v, x, rest, q', hx, hlt, hk, hb, hv, h⟩ :=
      member_of_run ih hl h
    obtain ⟨after, more, hy, ha, hm⟩ := moreMembers_of_run ih (by omega) h
    let m : Member := ⟨w, key, body, w', ⟨before, v, x, after⟩⟩
    have hall : ∀ m' ∈ m :: more, _ := List.forall_mem_cons.mpr ⟨⟨hk, ⟨hb, ha⟩, hv⟩, hm⟩
    refine ⟨_, _, ?_, .object (fun i hi => (hall i hi).1) (fun i hi => (hall i hi).2.1)
      (fun i hi => (hall i hi).2.2)⟩
    rw [hx, hy]
    simp [m, Member.bytes, Item.bytes]

theorem textUpTo (n : Nat) : TextUpTo n := by
  induction n with
  | zero =>
      intro p bytes c hl h
      obtain ⟨w, b, rest, rfl, -, -, -⟩ := exists_blanks_of_run h
      simp at hl
  | succ n ih =>
      intro p bytes c hl h
      obtain ⟨w, b, rest, rfl, hw, hb, h⟩ := exists_blanks_of_run h
      rw [List.length_append, List.length_cons] at hl
      suffices hs : ∃ v x, b :: rest = x ++ c.rest ∧ Text v x by
        obtain ⟨v, x, hx, hv⟩ := hs
        exact ⟨w, v, x, by rw [hx], hw, hv⟩
      rcases begin_of_run hb h with ⟨rfl, h⟩ | ⟨due, hd, h⟩ | ⟨phase, hp, h⟩ | ⟨k, hk, h⟩
      · rw [runFrom_eq_ok, drive_string] at h
        obtain ⟨body, hx, hbody⟩ := Literal.body_of_drive_skip Literal.Skip.inside_plain h
        obtain ⟨text, hd⟩ := Literal.exists_denotes hbody
        rw [List.nil_append] at hx
        exact ⟨_, _, by rw [hx]; simp [Literal.quoted], .string hd⟩
      · rw [runFrom_eq_ok, drive_word] at h
        obtain ⟨hne, v, hv⟩ := text_of_word hd
        obtain ⟨d, due, rfl⟩ := List.exists_cons_of_ne_nil hne
        exact ⟨v, _, by rw [Word.due_of_drive h]; rfl, hv⟩
      · rw [runFrom_eq_ok, drive_number] at h
        obtain ⟨xs, rfl, hx⟩ := Number.Phase.rest_of_drive h
        exact ⟨_, _, rfl, .number (Number.written_of_rest hp hx)⟩
      · rw [Container.ofOpening?] at hk
        split at hk
        next hb' =>
          cases hk
          rw [hb']
          exact text_of_firstItem ih (by omega) h
        next =>
          split at hk
          next hb' =>
            cases hk
            rw [hb']
            exact text_of_firstMember ih (by omega) h
          next => cases hk

/-- What a run has read is a text, with blanks before it. -/
theorem exists_text_of_run {p : Position} {bytes : List UInt8} {c : Cursor}
    (h : runFrom start p bytes = .ok c) :
    ∃ w v x, bytes = w ++ (x ++ c.rest) ∧ Blanks w ∧ Text v x :=
  textUpTo bytes.length p bytes c (Nat.le_refl _) h

end Skip

end Json

end Jstn
