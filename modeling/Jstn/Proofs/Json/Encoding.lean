import Jstn.Proofs.Json.Literal

/-!
# UTF-8 in the texts of values

Blanks and punctuation are ASCII.  So if the text of a container is UTF-8, the text of
every value in it is UTF-8 on its own (`valid_moreItems`, `valid_moreMembers`).  No text
breaks off inside a character, since it ends with an ASCII byte (`exists_last_of_text`).

Escapes are ASCII too and spell whole characters.  So a literal is in UTF-8 just if it
spells UTF-8 (`valid_append_spells`), and in UTF-8 it denotes no text only where half of a
surrogate pair stands alone (`denotes_none_iff`).
-/

namespace Jstn

namespace Json

theorem valid_blanks {w x : List UInt8} (hw : Blanks w) :
    Utf8.Valid (w ++ x) ↔ Utf8.Valid x := by
  induction w with
  | nil => rfl
  | cons b w ih =>
      obtain ⟨hb, hw⟩ := List.forall_mem_cons.mp hw
      rw [List.cons_append, Utf8.valid_cons_ascii (blank_ascii hb), ih hw]

/-- Bytes before blanks and an ASCII byte are UTF-8 on their own. -/
theorem valid_before_blanks {w x y : List UInt8} {b : UInt8} (hw : Blanks w)
    (hb : b.toNat < 0x80) :
    Utf8.Valid (x ++ (w ++ b :: y)) ↔ Utf8.Valid x ∧ Utf8.Valid (b :: y) := by
  cases w with
  | nil => rw [List.nil_append, Utf8.valid_append_ascii hb, Utf8.valid_cons_ascii hb]
  | cons c w =>
      obtain ⟨hc, hw⟩ := List.forall_mem_cons.mp hw
      rw [List.cons_append, Utf8.valid_append_ascii (blank_ascii hc), valid_blanks hw]

theorem valid_item {i : Item} {y : List UInt8} (hb : Blanks i.before ∧ Blanks i.after)
    (hy : ∃ b ys, y = b :: ys ∧ b.toNat < 0x80) (h : Utf8.Valid (i.bytes ++ y)) :
    Utf8.Valid i.text ∧ Utf8.Valid y := by
  obtain ⟨b, ys, rfl, hascii⟩ := hy
  rw [Item.bytes, List.append_assoc, List.append_assoc, valid_blanks hb.1] at h
  exact (valid_before_blanks hb.2 hascii).mp h

theorem valid_member {m : Member} {y : List UInt8} (hk : Blanks m.before ∧ Blanks m.after)
    (hb : Blanks m.item.before ∧ Blanks m.item.after)
    (hy : ∃ b ys, y = b :: ys ∧ b.toNat < 0x80) (h : Utf8.Valid (m.bytes ++ y)) :
    Utf8.Valid m.item.text ∧ Utf8.Valid y := by
  have hquote : Byte.quote.toNat < 0x80 := by decide
  have hcolon : Byte.colon.toNat < 0x80 := by decide
  simp only [Member.bytes, Literal.quoted, List.append_assoc, List.cons_append,
    List.nil_append] at h
  rw [valid_blanks hk.1, Utf8.valid_cons_ascii hquote, Utf8.valid_append_ascii hquote,
    valid_blanks hk.2, Utf8.valid_cons_ascii hcolon] at h
  exact valid_item hb hy h.2

theorem moreItems_ascii (more : List Item) :
    ∃ b ys, moreItems more ++ [Byte.closeBracket] = b :: ys ∧ b.toNat < 0x80 := by
  cases more with
  | nil => exact ⟨_, _, rfl, by decide⟩
  | cons i more => exact ⟨_, _, rfl, by decide⟩

theorem moreMembers_ascii (more : List Member) :
    ∃ b ys, moreMembers more ++ [Byte.closeBrace] = b :: ys ∧ b.toNat < 0x80 := by
  cases more with
  | nil => exact ⟨_, _, rfl, by decide⟩
  | cons m more => exact ⟨_, _, rfl, by decide⟩

theorem valid_moreItems {more : List Item} (hb : ∀ i ∈ more, Blanks i.before ∧ Blanks i.after)
    (h : Utf8.Valid (moreItems more ++ [Byte.closeBracket])) : ∀ i ∈ more, Utf8.Valid i.text := by
  induction more with
  | nil => nofun
  | cons i more ih =>
      obtain ⟨hbi, hb⟩ := List.forall_mem_cons.mp hb
      rw [moreItems_cons, List.cons_append, List.append_assoc,
        Utf8.valid_cons_ascii (by decide)] at h
      obtain ⟨hi, hmore⟩ := valid_item hbi (moreItems_ascii more) h
      exact List.forall_mem_cons.mpr ⟨hi, ih hb hmore⟩

theorem valid_moreMembers {more : List Member}
    (hk : ∀ m ∈ more, Blanks m.before ∧ Blanks m.after ∧ Literal.Denotes m.body m.key)
    (hb : ∀ m ∈ more, Blanks m.item.before ∧ Blanks m.item.after)
    (h : Utf8.Valid (moreMembers more ++ [Byte.closeBrace])) :
    ∀ m ∈ more, Utf8.Valid m.item.text := by
  induction more with
  | nil => nofun
  | cons m more ih =>
      obtain ⟨⟨hbefore, hafter, -⟩, hk⟩ := List.forall_mem_cons.mp hk
      obtain ⟨hbm, hb⟩ := List.forall_mem_cons.mp hb
      rw [moreMembers_cons, List.cons_append, List.append_assoc,
        Utf8.valid_cons_ascii (by decide)] at h
      obtain ⟨hm, hmore⟩ := valid_member ⟨hbefore, hafter⟩ hbm (moreMembers_ascii more) h
      exact List.forall_mem_cons.mpr ⟨hm, ih hk hb hmore⟩

theorem valid_array {first : Item} {more : List Item}
    (hb : ∀ i ∈ first :: more, Blanks i.before ∧ Blanks i.after)
    (h : Utf8.Valid
      (Byte.openBracket :: (first.bytes ++ (moreItems more ++ [Byte.closeBracket])))) :
    ∀ i ∈ first :: more, Utf8.Valid i.text := by
  obtain ⟨hbfirst, hbmore⟩ := List.forall_mem_cons.mp hb
  rw [Utf8.valid_cons_ascii (by decide)] at h
  obtain ⟨hfirst, hmore⟩ := valid_item hbfirst (moreItems_ascii more) h
  exact List.forall_mem_cons.mpr ⟨hfirst, valid_moreItems hbmore hmore⟩

theorem valid_object {first : Member} {more : List Member}
    (hk : ∀ m ∈ first :: more, Blanks m.before ∧ Blanks m.after ∧ Literal.Denotes m.body m.key)
    (hb : ∀ m ∈ first :: more, Blanks m.item.before ∧ Blanks m.item.after)
    (h : Utf8.Valid
      (Byte.openBrace :: (first.bytes ++ (moreMembers more ++ [Byte.closeBrace])))) :
    ∀ m ∈ first :: more, Utf8.Valid m.item.text := by
  obtain ⟨⟨hbefore, hafter, -⟩, hkmore⟩ := List.forall_mem_cons.mp hk
  obtain ⟨hbfirst, hbmore⟩ := List.forall_mem_cons.mp hb
  rw [Utf8.valid_cons_ascii (by decide)] at h
  obtain ⟨hfirst, hmore⟩ := valid_member ⟨hbefore, hafter⟩ hbfirst (moreMembers_ascii more) h
  exact List.forall_mem_cons.mpr ⟨hfirst, valid_moreMembers hkmore hbmore hmore⟩

/-- A text that stands between blanks. -/
theorem valid_of_written {before text after : List UInt8} (hbefore : Blanks before)
    (hafter : Blanks after) (h : Utf8.Valid (before ++ (text ++ after))) : Utf8.Valid text := by
  rw [valid_blanks hbefore] at h
  cases after with
  | nil => rwa [List.append_nil] at h
  | cons b after =>
      exact ((Utf8.valid_append_ascii (blank_ascii (hafter b List.mem_cons_self))).mp h).1

/-! ## The last byte of a text -/

theorem digit_ascii {d : UInt8} (h : Byte.isDigit d = true) : d.toNat < 0x80 := by
  simp only [Byte.isDigit, Bool.and_eq_true, decide_eq_true_eq, UInt8.le_iff_toNat_le] at h
  exact Nat.lt_of_le_of_lt h.2 (by decide)

theorem exponentLetter_ascii {e : UInt8} (h : Byte.isExponentLetter e = true) :
    e.toNat < 0x80 := by
  simp only [Byte.isExponentLetter, Bool.or_eq_true, decide_eq_true_eq] at h
  rcases h with rfl | rfl <;> decide

theorem digits_ascii {ds : List UInt8} (h : Number.Digits ds) : ∀ d ∈ ds, d.toNat < 0x80 :=
  fun d hd => digit_ascii (h d hd)

/-- All bytes of a number are ASCII. -/
theorem ascii_of_written {bytes : List UInt8} (h : Number.Written bytes) :
    ∀ b ∈ bytes, b.toNat < 0x80 := by
  obtain ⟨hsign, hwhole, hfraction, hexponent⟩ := h
  simp only [List.forall_mem_append]
  refine ⟨?_, ?_, ?_, ?_⟩
  · rcases hsign with rfl | rfl
    · exact List.forall_mem_nil _
    · exact List.forall_mem_singleton.mpr (by decide)
  · cases hwhole with
    | zero => exact List.forall_mem_singleton.mpr (by decide)
    | digits hd _ hds => exact List.forall_mem_cons.mpr ⟨digit_ascii hd, digits_ascii hds⟩
  · cases hfraction with
    | none => exact List.forall_mem_nil _
    | digits hd hds =>
        exact List.forall_mem_cons.mpr
          ⟨by decide, List.forall_mem_cons.mpr ⟨digit_ascii hd, digits_ascii hds⟩⟩
  · cases hexponent with
    | none => exact List.forall_mem_nil _
    | digits he hsign hd hds =>
        refine List.forall_mem_cons.mpr ⟨exponentLetter_ascii he, List.forall_mem_append.mpr ⟨?_,
          List.forall_mem_cons.mpr ⟨digit_ascii hd, digits_ascii hds⟩⟩⟩
        rcases hsign with rfl | rfl | rfl
        · exact List.forall_mem_nil _
        · exact List.forall_mem_singleton.mpr (by decide)
        · exact List.forall_mem_singleton.mpr (by decide)

theorem written_ne_nil {bytes : List UInt8} (h : Number.Written bytes) : bytes ≠ [] := by
  obtain ⟨-, hwhole, -, -⟩ := h
  cases hwhole <;> simp

/-- The text of a value ends with an ASCII byte. -/
theorem exists_last_of_text {v : Value} {x : List UInt8} (h : Text v x) :
    ∃ xs b, x = xs ++ [b] ∧ b.toNat < 0x80 := by
  cases h with
  | null => exact ⟨[0x6E, 0x75, 0x6C], 0x6C, rfl, by decide⟩
  | true => exact ⟨[0x74, 0x72, 0x75], 0x65, rfl, by decide⟩
  | false => exact ⟨[0x66, 0x61, 0x6C, 0x73], 0x65, rfl, by decide⟩
  | number hw =>
      have hne := written_ne_nil hw
      exact ⟨_, _, (List.dropLast_concat_getLast hne).symm,
        ascii_of_written hw _ (List.getLast_mem hne)⟩
  | @string body _ _ => exact ⟨Byte.quote :: body, Byte.quote, rfl, by decide⟩
  | @emptyArray blanks _ =>
      exact ⟨Byte.openBracket :: blanks, Byte.closeBracket, rfl, by decide⟩
  | @array first more _ _ =>
      exact ⟨Byte.openBracket :: (first.bytes ++ moreItems more), Byte.closeBracket, by simp,
        by decide⟩
  | @emptyObject blanks _ => exact ⟨Byte.openBrace :: blanks, Byte.closeBrace, rfl, by decide⟩
  | @object first more _ _ _ =>
      exact ⟨Byte.openBrace :: (first.bytes ++ moreMembers more), Byte.closeBrace, by simp,
        by decide⟩

/-! ## Literals -/

namespace Literal

theorem escaped_ascii {e c : UInt8} (h : Byte.escaped? e = some c) :
    e.toNat < 0x80 ∧ c.toNat < 0x80 := by
  rw [Byte.escaped?] at h
  repeat' (split at h)
  all_goals cases h
  all_goals
    subst_vars
    decide

theorem hexDigit_ascii {d : UInt8} {n : Nat} (h : Byte.hexValue? d = some n) :
    d.toNat < 0x80 := by
  simp only [Byte.hexValue?, Byte.isDigit, Bool.and_eq_true, decide_eq_true_eq,
    UInt8.le_iff_toNat_le] at h
  repeat' (split at h)
  all_goals cases h
  · exact Nat.lt_of_le_of_lt (by assumption : _ ∧ _).2 (by decide)
  · exact Nat.lt_of_le_of_lt (by assumption : _ ∧ _).2 (by decide)
  · exact Nat.lt_of_le_of_lt (by assumption : _ ∧ _).2 (by decide)

/-- UTF-8 may be cut at an escape of a code. -/
theorem valid_append_code {pre hex xs : List UInt8} {n : Nat} (h : HexCode hex n) :
    Utf8.Valid (pre ++ Byte.backslash :: Byte.letterU :: (hex ++ xs)) ↔
      Utf8.Valid pre ∧ Utf8.Valid xs := by
  rw [Utf8.valid_append_ascii (by decide), Utf8.valid_cons_ascii (by decide)]
  cases h with
  | digits ha hb hc hd =>
      simp only [List.cons_append, List.nil_append]
      rw [Utf8.valid_cons_ascii (hexDigit_ascii ha), Utf8.valid_cons_ascii (hexDigit_ascii hb),
        Utf8.valid_cons_ascii (hexDigit_ascii hc), Utf8.valid_cons_ascii (hexDigit_ascii hd)]

/-- A literal is in UTF-8 just if the bytes that it spells are.  Plain bytes may be parts of a
character, which begins in the bytes before, but an escape stands for whole characters. -/
theorem valid_append_spells {pre body bytes : List UInt8} (h : Spells body bytes) :
    Utf8.Valid (pre ++ body) ↔ Utf8.Valid (pre ++ bytes) := by
  have hslash : Byte.backslash.toNat < 0x80 := by decide
  induction h generalizing pre with
  | nil => exact Iff.rfl
  | @plain b body bytes _ _ ih =>
      have h := @ih (pre ++ [b])
      rwa [List.append_assoc, List.append_assoc] at h
  | @escape e c body bytes he _ ih =>
      obtain ⟨hascii, hascii'⟩ := escaped_ascii he
      rw [Utf8.valid_append_ascii hslash, Utf8.valid_cons_ascii hascii,
        Utf8.valid_append_ascii hascii', show Utf8.Valid body ↔ Utf8.Valid bytes from @ih []]
  | @code hex body bytes n hcode _ _ _ ih =>
      rw [valid_append_code hcode, Utf8.valid_append_encodeChar,
        show Utf8.Valid body ↔ Utf8.Valid bytes from @ih []]
  | @pair hex hex' body bytes high low hcode _ hcode' _ _ ih =>
      have hlow := @valid_append_code [] _ body _ hcode'
      rw [List.nil_append] at hlow
      rw [valid_append_code hcode, hlow, Utf8.valid_append_encodeChar,
        show Utf8.Valid body ↔ Utf8.Valid bytes from @ih [], and_iff_right Utf8.valid_nil]

theorem denotes_of_spells {body : List UInt8} {s : String} (h : Spells body (Utf8.encode s)) :
    Denotes body (some s) := by
  refine ⟨h.body, fun t => ⟨fun ht => Option.some.inj ht ▸ h, fun ht => ?_⟩⟩
  exact congrArg some (Utf8.encode_inj (spells_unique h ht))

end Literal

end Json

end Jstn
