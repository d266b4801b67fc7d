import Jstn.Proofs.Text.Utf8

/-!
# The order of texts and the order of their bytes

Texts are compared character by character, and their encodings byte by byte.  The two
orders agree (`encode_lt_iff`).

The first byte of a character tells how many follow it, and more bytes follow a greater
character.  Between characters of one length the first byte in which they differ decides,
since each byte holds the next six bits (`continuation_lt`).
-/

namespace Jstn

namespace Utf8

/-! ## Characters -/

theorem cons_lt_cons_of_lt {m n : Nat} (h : m < n) (hn : n < 256) (xs ys : List UInt8) :
    UInt8.ofNat m :: xs < UInt8.ofNat n :: ys := by
  refine List.cons_lt_cons_iff.mpr (Or.inl (UInt8.lt_iff_toNat_lt.mpr ?_))
  simp only [UInt8.toNat_ofNat']
  omega

/-- Numbers that agree before the last six bits differ in these. -/
theorem mod_lt_mod {m n : Nat} (h : m < n) (heq : m / 64 = n / 64) : m % 64 < n % 64 := by
  omega

/-- Continuation bytes are in the order of the numbers whose bits they hold. -/
theorem continuation_lt {more m n : Nat} (h : m < n)
    (heq : m / 64 ^ (more + 1) = n / 64 ^ (more + 1)) (xs ys : List UInt8) :
    continuation more m ++ xs < continuation more n ++ ys := by
  induction more with
  | zero =>
      rw [Nat.zero_add, Nat.pow_one] at heq
      have hlt := mod_lt_mod h heq
      exact cons_lt_cons_of_lt (by omega) (by omega) xs ys
  | succ more ih =>
      rw [continuation, continuation, List.cons_append, List.cons_append]
      rcases Nat.lt_or_ge (m / 64 ^ (more + 1)) (n / 64 ^ (more + 1)) with hlt | hge
      · rw [Nat.pow_succ, ← Nat.div_div_eq_div_mul, ← Nat.div_div_eq_div_mul] at heq
        have hmod := mod_lt_mod hlt heq
        exact cons_lt_cons_of_lt (by omega) (by omega) _ _
      · have hbits := Nat.le_antisymm (Nat.div_le_div_right (Nat.le_of_lt h)) hge
        rw [hbits]
        exact List.cons_lt_cons_iff.mpr (Or.inr ⟨rfl, ih hbits⟩)

/-- Characters of one length, which begin with some of their bits. -/
theorem lead_continuation_lt (more base : Nat) {m n : Nat} (h : m < n)
    (hn : n / 64 ^ (more + 1) + base < 256) (xs ys : List UInt8) :
    UInt8.ofNat (m / 64 ^ (more + 1) + base) :: (continuation more m ++ xs)
      < UInt8.ofNat (n / 64 ^ (more + 1) + base) :: (continuation more n ++ ys) := by
  rcases Nat.lt_or_ge (m / 64 ^ (more + 1)) (n / 64 ^ (more + 1)) with hlt | hge
  · exact cons_lt_cons_of_lt (by omega) hn _ _
  · have hbits := Nat.le_antisymm (Nat.div_le_div_right (Nat.le_of_lt h)) hge
    rw [hbits]
    exact List.cons_lt_cons_iff.mpr (Or.inr ⟨rfl, continuation_lt h hbits xs ys⟩)

/-- A smaller character has smaller bytes, whatever comes after it. -/
theorem encodeChar_lt {c d : Char} (h : c < d) (xs ys : List UInt8) :
    String.utf8EncodeChar c ++ xs < String.utf8EncodeChar d ++ ys := by
  have hlt : c.toNat < d.toNat := h
  have hd : d.toNat < 0x110000 := by
    rcases d.valid with hlt | ⟨-, hlt⟩ <;> simp only [Char.toNat] <;> omega
  -- A longer character has a greater first byte, so only those of one length are compared
  -- further.
  rcases Nat.lt_or_ge c.toNat 0x80 with hc1 | hc1
  · rw [encodeChar_one hc1]
    rcases encodeChar_cases d with ⟨hd1, hone⟩ | ⟨b, more, hb, hmany⟩
    · rw [hone]
      exact cons_lt_cons_of_lt hlt (by omega) xs ys
    · rw [hmany, ← UInt8.ofNat_toNat (x := b)]
      exact cons_lt_cons_of_lt (by omega) (UInt8.toNat_lt b) _ _
  rcases Nat.lt_or_ge c.toNat 0x800 with hc2 | hc2
  · rw [encodeChar_two hc1 hc2]
    rcases Nat.lt_or_ge d.toNat 0x800 with hd2 | hd2
    · rw [encodeChar_two (by omega) hd2]
      exact lead_continuation_lt 0 0xC0 hlt (by omega) xs ys
    rcases Nat.lt_or_ge d.toNat 0x10000 with hd3 | hd3
    · rw [encodeChar_three hd2 hd3]
      exact cons_lt_cons_of_lt (by omega) (by omega) _ _
    · rw [encodeChar_four hd3]
      exact cons_lt_cons_of_lt (by omega) (by omega) _ _
  rcases Nat.lt_or_ge c.toNat 0x10000 with hc3 | hc3
  · rw [encodeChar_three hc2 hc3]
    rcases Nat.lt_or_ge d.toNat 0x10000 with hd3 | hd3
    · rw [encodeChar_three (by omega) hd3]
      exact lead_continuation_lt 1 0xE0 hlt (by omega) xs ys
    · rw [encodeChar_four hd3]
      exact cons_lt_cons_of_lt (by omega) (by omega) _ _
  · rw [encodeChar_four hc3, encodeChar_four (by omega)]
    exact lead_continuation_lt 2 0xF0 hlt (by omega) xs ys

/-! ## Texts -/

/-- Lists of characters are in the order of their bytes. -/
theorem flatMap_lt {cs ds : List Char} (h : cs < ds) :
    cs.flatMap String.utf8EncodeChar < ds.flatMap String.utf8EncodeChar := by
  induction cs generalizing ds with
  | nil =>
      cases ds with
      | nil => exact absurd h (List.lt_irrefl _)
      | cons d ds =>
          rw [List.flatMap_nil, List.flatMap_cons]
          rcases encodeChar_cases d with ⟨-, hone⟩ | ⟨b, more, -, hmany⟩
          · rw [hone]
            exact List.nil_lt_cons _ _
          · rw [hmany]
            exact List.nil_lt_cons _ _
  | cons c cs ih =>
      cases ds with
      | nil => exact absurd h (List.not_lt_nil _)
      | cons d ds =>
          rw [List.flatMap_cons, List.flatMap_cons]
          rcases List.cons_lt_cons_iff.mp h with hcd | ⟨rfl, hmore⟩
          · exact encodeChar_lt hcd _ _
          · exact List.append_left_lt (ih hmore)

/-- The bytes of texts are in the order of the texts. -/
theorem encode_lt_iff {s t : String} : encode s < encode t ↔ s < t := by
  have hmono : ∀ {s t : String}, s < t → encode s < encode t := fun h =>
    flatMap_lt (String.lt_iff.mp h)
  constructor
  · intro h
    by_cases hlt : s < t
    · exact hlt
    · by_cases hgt : t < s
      · exact absurd (hmono hgt) (List.lt_asymm h)
      · obtain rfl := String.le_antisymm (String.not_lt.mp hgt) (String.not_lt.mp hlt)
        exact absurd h (List.lt_irrefl _)
  · exact hmono

theorem encode_le_iff {s t : String} : encode s ≤ encode t ↔ s ≤ t := by
  rw [← List.not_lt, encode_lt_iff, String.not_lt]

end Utf8

end Jstn
