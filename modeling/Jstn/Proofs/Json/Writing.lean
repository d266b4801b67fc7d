import Jstn.Proofs.Json.Encoding

/-!
# Literals that are written

`Literal.encode` writes a text as a literal that denotes it (`text_encode`), character by
character.  A character is escaped or stands for itself, and either way what is written
spells its bytes (`spells_encodeChar`).
-/

namespace Jstn

namespace Json

namespace Literal

/-- The bytes between the quotes of the literal that is written for a text. -/
def encodeBody (s : String) : List UInt8 :=
  Utf8.encode (String.ofList (s.toList.flatMap encodeChar))

theorem plain_of_nonascii {b : UInt8} (h : 0x80 ≤ b.toNat) : IsPlain b := by
  refine ⟨?_, ?_, ?_⟩
  · rintro rfl
    exact absurd h (by decide)
  · rintro rfl
    exact absurd h (by decide)
  · simp only [Byte.isControl, decide_eq_false_iff_not, UInt8.lt_iff_toNat_lt]
    intro hlt
    exact absurd (Nat.le_trans h (Nat.le_of_lt hlt)) (by decide)

/-- The bytes of a character that is not escaped stand for themselves. -/
theorem plain_encodeChar {c : Char} (hq : c ≠ '"') (hs : c ≠ '\\') (hc : ¬c.toNat < 0x20) :
    ∀ b ∈ String.utf8EncodeChar c, IsPlain b := by
  intro b hb
  rcases Utf8.encodeChar_cases c with ⟨hlt, hone⟩ | ⟨first, more, hfirst, hmany⟩
  · rw [hone, List.mem_singleton] at hb
    subst hb
    have hb : (UInt8.ofNat c.toNat).toNat = c.toNat := by
      simp only [UInt8.toNat_ofNat']
      omega
    refine ⟨fun h => hq ?_, fun h => hs ?_, ?_⟩
    · exact Char.toNat_inj.mp (hb.symm.trans (congrArg UInt8.toNat h))
    · exact Char.toNat_inj.mp (hb.symm.trans (congrArg UInt8.toNat h))
    · simp only [Byte.isControl, decide_eq_false_iff_not, UInt8.lt_iff_toNat_lt, hb]
      exact hc
  · rw [hmany, List.mem_cons] at hb
    rcases hb with rfl | hb
    · exact plain_of_nonascii (by omega)
    · have hb := Utf8.not_leads_of_continuation hb
      simp only [Utf8.Leads, not_or] at hb
      exact plain_of_nonascii (by omega)

theorem spells_plain {xs body bytes : List UInt8} (hx : ∀ b ∈ xs, IsPlain b)
    (h : Spells body bytes) : Spells (xs ++ body) (xs ++ bytes) := by
  induction xs with
  | nil => exact h
  | cons b xs ih =>
      obtain ⟨hb, hx⟩ := List.forall_mem_cons.mp hx
      exact .plain hb (ih hx)

theorem hexValue?_digitChar : ∀ d : Fin 16,
    (Nat.digitChar d).toNat < 0x80 ∧
      Byte.hexValue? (UInt8.ofNat (Nat.digitChar d).toNat) = some d.val := by
  decide

/-- The four digits that are written for a control character. -/
theorem hexCode_control {n : Nat} (h : n < 0x20) :
    HexCode (('0' :: '0' :: hexPair n).flatMap String.utf8EncodeChar) n := by
  obtain ⟨hhigh, hx⟩ := hexValue?_digitChar ⟨n / 16, by omega⟩
  obtain ⟨hlow, hy⟩ := hexValue?_digitChar ⟨n % 16, by omega⟩
  have hcode : HexCode [0x30, 0x30, UInt8.ofNat (Nat.digitChar (n / 16)).toNat,
      UInt8.ofNat (Nat.digitChar (n % 16)).toNat] (((0 * 16 + 0) * 16 + n / 16) * 16 + n % 16) :=
    .digits rfl rfl hx hy
  have hn : ((0 * 16 + 0) * 16 + n / 16) * 16 + n % 16 = n := by omega
  rw [hn] at hcode
  simp only [hexPair, List.flatMap_cons, List.flatMap_nil, Utf8.encodeChar_one hhigh,
    Utf8.encodeChar_one hlow]
  exact hcode

theorem spells_encodeChar (c : Char) {body bytes : List UInt8} (h : Spells body bytes) :
    Spells ((encodeChar c).flatMap String.utf8EncodeChar ++ body)
      (String.utf8EncodeChar c ++ bytes) := by
  unfold encodeChar
  split
  · exact .escape rfl h
  · exact .escape rfl h
  · exact .escape rfl h
  · exact .escape rfl h
  · exact .escape rfl h
  · exact .escape rfl h
  · exact .escape rfl h
  · split
    next hc =>
      have hhigh : isHighSurrogate c.toNat = false := by
        simp only [isHighSurrogate, Bool.and_eq_false_iff, decide_eq_false_iff_not]
        omega
      have hlow : isLowSurrogate c.toNat = false := by
        simp only [isLowSurrogate, Bool.and_eq_false_iff, decide_eq_false_iff_not]
        omega
      have hspells := Spells.code (hexCode_control hc) hhigh hlow h
      rwa [Char.ofNat_toNat] at hspells
    next hc =>
      rw [List.flatMap_singleton]
      exact spells_plain (plain_encodeChar (by assumption) (by assumption) hc) h

/-- What is written for a text spells it. -/
theorem spells_encodeBody (s : String) : Spells (encodeBody s) (Utf8.encode s) := by
  rw [encodeBody, Utf8.encode_ofList, Utf8.encode]
  induction s.toList with
  | nil => exact .nil
  | cons c cs ih =>
      rw [List.flatMap_cons, List.flatMap_append, List.flatMap_cons]
      exact spells_encodeChar c ih

theorem denotes_encodeBody (s : String) : Denotes (encodeBody s) (some s) :=
  denotes_of_spells (spells_encodeBody s)

theorem encode_eq_quoted (s : String) : Utf8.encode (encode s) = quoted (encodeBody s) := by
  rw [encode, quoted, encodeBody, Utf8.encode_ofList, Utf8.encode_ofList, List.cons_append,
    List.flatMap_cons, List.flatMap_append]
  rfl

/-- A text is written as a literal that denotes it. -/
theorem text_encode (s : String) : Text (.string (some s)) (Utf8.encode (encode s)) := by
  rw [encode_eq_quoted]
  exact .string (denotes_encodeBody s)

end Literal

end Json

end Jstn
