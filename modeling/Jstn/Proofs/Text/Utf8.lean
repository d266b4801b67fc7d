import Jstn.Text.Utf8
import Mathlib.Algebra.Group.Nat.Defs

/-!
# What the UTF-8 machine reads

`Utf8.decode` and `Utf8.encode` undo each other (`decode_encode`,
`encode_of_decode`).  So the machine accepts exactly the valid texts
(`valid_iff_decode`), where a list of bytes is *valid* if it encodes some text.

Both directions look at a character through its continuation bytes, which hold
six bits each (`continuation`).  A state inside a character stands for the
characters it can still become (`Pending`), and a byte narrows them down.

No character goes on with a byte that begins one.  So a valid text may be cut before and
after every character, and both sides are valid (`valid_append_encodeChar`).  An ASCII byte
is a character (`valid_append_ascii`).
-/

namespace Jstn

namespace Utf8

/-- The last `more + 1` bytes of a character of several bytes. -/
def continuation : Nat → Nat → List UInt8
  | 0, n => [UInt8.ofNat (n % 64 + 0x80)]
  | more + 1, n => UInt8.ofNat (n / 64 ^ (more + 1) % 64 + 0x80) :: continuation more n

/-- A list of bytes that encodes a text. -/
def Valid (bytes : List UInt8) : Prop := ∃ text, bytes = encode text

/-- A byte that begins a character. -/
def Leads (b : UInt8) : Prop := b.toNat < 0x80 ∨ 0xC0 ≤ b.toNat

theorem not_leads_of_continuation {more n : Nat} {b : UInt8} (h : b ∈ continuation more n) :
    ¬Leads b := by
  induction more with
  | zero =>
      simp only [continuation, List.mem_singleton] at h
      subst h
      simp only [Leads, UInt8.toNat_ofNat']
      omega
  | succ more ih =>
      rcases List.mem_cons.mp h with h | h
      · subst h
        simp only [Leads, UInt8.toNat_ofNat']
        omega
      · exact ih h

/-! ## The bytes of a character -/

theorem encodeChar_one {c : Char} (h : c.toNat < 0x80) :
    String.utf8EncodeChar c = [UInt8.ofNat c.toNat] := by
  have hv : c.val.toNat ≤ 0x7f := by
    have : c.val.toNat = c.toNat := rfl
    omega
  simp only [String.utf8EncodeChar, if_pos hv]
  rfl

theorem encodeChar_two {c : Char} (h : 0x80 ≤ c.toNat) (h' : c.toNat < 0x800) :
    String.utf8EncodeChar c = UInt8.ofNat (c.toNat / 64 + 0xC0) :: continuation 0 c.toNat := by
  have hv : c.val.toNat = c.toNat := rfl
  simp only [String.utf8EncodeChar, hv]
  rw [if_neg (by omega), if_pos (by omega), Nat.mod_eq_of_lt (by omega : c.toNat / 64 < 0x20)]
  rfl

theorem encodeChar_three {c : Char} (h : 0x800 ≤ c.toNat) (h' : c.toNat < 0x10000) :
    String.utf8EncodeChar c = UInt8.ofNat (c.toNat / 4096 + 0xE0) :: continuation 1 c.toNat := by
  have hv : c.val.toNat = c.toNat := rfl
  simp only [String.utf8EncodeChar, hv]
  rw [if_neg (by omega), if_neg (by omega), if_pos (by omega),
    Nat.mod_eq_of_lt (by omega : c.toNat / 4096 < 0x10)]
  rfl

theorem encodeChar_four {c : Char} (h : 0x10000 ≤ c.toNat) :
    String.utf8EncodeChar c = UInt8.ofNat (c.toNat / 262144 + 0xF0) :: continuation 2 c.toNat := by
  have hv : c.val.toNat = c.toNat := rfl
  have hc : c.toNat < 0x110000 := by
    rcases c.valid with hlt | ⟨-, hlt⟩ <;> simp only [Char.toNat] <;> omega
  simp only [String.utf8EncodeChar, hv]
  rw [if_neg (by omega), if_neg (by omega), if_neg (by omega),
    Nat.mod_eq_of_lt (by omega : c.toNat / 262144 < 0x08)]
  rfl

/-- A character is an ASCII byte or begins with a byte of its length and goes on
with continuation bytes. -/
theorem encodeChar_cases (c : Char) :
    (c.toNat < 0x80 ∧ String.utf8EncodeChar c = [UInt8.ofNat c.toNat]) ∨
      ∃ b more, 0xC0 ≤ b.toNat ∧ String.utf8EncodeChar c = b :: continuation more c.toNat := by
  rcases Nat.lt_or_ge c.toNat 0x80 with h1 | h1
  · exact Or.inl ⟨h1, encodeChar_one h1⟩
  have hc : c.toNat < 0x110000 := by
    rcases c.valid with hlt | ⟨-, hlt⟩ <;> simp only [Char.toNat] <;> omega
  rcases Nat.lt_or_ge c.toNat 0x800 with h2 | h2
  · refine Or.inr ⟨_, _, ?_, encodeChar_two h1 h2⟩
    simp only [UInt8.toNat_ofNat']
    omega
  rcases Nat.lt_or_ge c.toNat 0x10000 with h3 | h3
  · refine Or.inr ⟨_, _, ?_, encodeChar_three h2 h3⟩
    simp only [UInt8.toNat_ofNat']
    omega
  · refine Or.inr ⟨_, _, ?_, encodeChar_four h3⟩
    simp only [UInt8.toNat_ofNat']
    omega

theorem toNat_ofNat_of_valid {n : Nat} (h : n.isValidChar) : (Char.ofNat n).toNat = n := by
  rw [Char.ofNat, dif_pos h]
  rfl

/-- The bytes of an ASCII character. -/
theorem encodeChar_ascii {b : UInt8} (h : b.toNat < 0x80) :
    String.utf8EncodeChar (Char.ofNat b.toNat) = [b] := by
  have hc : (Char.ofNat b.toNat).toNat = b.toNat := toNat_ofNat_of_valid (Or.inl (by omega))
  rw [encodeChar_one (by omega), hc, UInt8.ofNat_toNat]

/-- The first byte of a character begins it, and no other byte of it does. -/
theorem encodeChar_eq_cons (c : Char) :
    ∃ b bs, String.utf8EncodeChar c = b :: bs ∧ Leads b ∧ ∀ x ∈ bs, ¬Leads x := by
  rcases encodeChar_cases c with ⟨h, hc⟩ | ⟨b, more, hb, hc⟩
  · refine ⟨_, [], hc, Or.inl ?_, List.forall_mem_nil _⟩
    simp only [UInt8.toNat_ofNat']
    omega
  · exact ⟨b, _, hc, Or.inr hb, fun x hx => not_leads_of_continuation hx⟩

/-- The first character of bytes is decided by them. -/
theorem encodeChar_append_inj {c c' : Char} {xs ys : List UInt8}
    (h : String.utf8EncodeChar c ++ xs = String.utf8EncodeChar c' ++ ys) : c = c' ∧ xs = ys := by
  have hc := ByteArray.utf8DecodeChar?_utf8EncodeChar_append (b := xs.toByteArray) (c := c)
  rw [← List.toByteArray_append, h, List.toByteArray_append,
    ByteArray.utf8DecodeChar?_utf8EncodeChar_append] at hc
  obtain rfl := Option.some.inj hc
  exact ⟨rfl, List.append_cancel_left h⟩

/-! ## Cutting between characters -/

theorem encode_ofList (cs : List Char) :
    encode (String.ofList cs) = cs.flatMap String.utf8EncodeChar := by
  rw [encode, String.toList_ofList]

theorem encode_append (s t : String) : encode (s ++ t) = encode s ++ encode t := by
  rw [encode, String.toList_append, List.flatMap_append, encode, encode]

theorem valid_nil : Valid [] := ⟨"", rfl⟩

theorem valid_flatMap (cs : List Char) : Valid (cs.flatMap String.utf8EncodeChar) :=
  ⟨String.ofList cs, (encode_ofList cs).symm⟩

theorem valid_encodeChar (c : Char) : Valid (String.utf8EncodeChar c) := by
  have h := valid_flatMap [c]
  rwa [List.flatMap_singleton] at h

theorem Valid.append {xs ys : List UInt8} (hx : Valid xs) (hy : Valid ys) : Valid (xs ++ ys) := by
  obtain ⟨s, rfl⟩ := hx
  obtain ⟨t, rfl⟩ := hy
  exact ⟨s ++ t, (encode_append s t).symm⟩

theorem valid_ascii {b : UInt8} (h : b.toNat < 0x80) : Valid [b] := by
  rw [← encodeChar_ascii h]
  exact valid_encodeChar _

/-- A text in which a byte begins a character is cut before it. -/
theorem cut_flatMap {b : UInt8} (hb : Leads b) {ys : List UInt8} :
    ∀ {cs : List Char} {xs : List UInt8}, cs.flatMap String.utf8EncodeChar = xs ++ b :: ys →
      Valid xs ∧ Valid (b :: ys)
  | [], xs, h => by simp at h
  | c :: cs, [], h => by
      have hcs := valid_flatMap (c :: cs)
      rw [h] at hcs
      exact ⟨valid_nil, hcs⟩
  | c :: cs, x :: xs, h => by
      rw [List.flatMap_cons] at h
      rcases List.append_eq_append_iff.mp h with ⟨mid, hx, hcs⟩ | ⟨mid, hc, hy⟩
      · obtain ⟨hmid, hys⟩ := cut_flatMap hb hcs
        rw [hx]
        exact ⟨(valid_encodeChar c).append hmid, hys⟩
      · cases mid with
        | nil =>
            have hcs : cs.flatMap String.utf8EncodeChar = [] ++ b :: ys := by simpa using hy.symm
            rw [List.append_nil] at hc
            rw [← hc]
            exact ⟨valid_encodeChar c, (cut_flatMap hb hcs).2⟩
        | cons m mid =>
            -- The byte would be a later byte of `c`.
            obtain ⟨rfl, -⟩ := List.cons.inj hy
            obtain ⟨a, bs, hc', -, hbs⟩ := encodeChar_eq_cons c
            rw [hc'] at hc
            obtain ⟨-, rfl⟩ := List.cons.inj hc
            exact absurd hb (hbs b (by simp))

theorem valid_append_encodeChar {xs ys : List UInt8} {c : Char} :
    Valid (xs ++ (String.utf8EncodeChar c ++ ys)) ↔ Valid xs ∧ Valid ys := by
  constructor
  · rintro ⟨text, h⟩
    obtain ⟨b, bs, hc, hb, -⟩ := encodeChar_eq_cons c
    rw [encode, hc, List.cons_append] at h
    obtain ⟨hx, text', h'⟩ := cut_flatMap hb h.symm
    rw [← List.cons_append, ← hc, encode] at h'
    cases hcs : text'.toList with
    | nil =>
        rw [hcs, hc] at h'
        cases h'
    | cons c' cs =>
        rw [hcs, List.flatMap_cons] at h'
        obtain ⟨-, rfl⟩ := encodeChar_append_inj h'
        exact ⟨hx, valid_flatMap cs⟩
  · rintro ⟨hx, hy⟩
    exact hx.append ((valid_encodeChar c).append hy)

theorem valid_append_ascii {xs ys : List UInt8} {b : UInt8} (hb : b.toNat < 0x80) :
    Valid (xs ++ b :: ys) ↔ Valid xs ∧ Valid ys := by
  rw [← List.singleton_append, ← encodeChar_ascii hb, valid_append_encodeChar]

theorem valid_cons_ascii {ys : List UInt8} {b : UInt8} (hb : b.toNat < 0x80) :
    Valid (b :: ys) ↔ Valid ys := by
  rw [← List.nil_append (b :: ys), valid_append_ascii hb]
  exact ⟨And.right, fun h => ⟨valid_nil, h⟩⟩

/-! ## The characters a state can become -/

/-- The bytes `pre` of a character have led to a state.  Inside a character, every
number that the state leaves open is a character with these first bytes. -/
def Pending (s : State) (pre : List UInt8) : Prop :=
  match s with
  | .boundary => pre = []
  | .inside code low high more =>
      0x80 ≤ low.toNat ∧ high.toNat ≤ 0xBF ∧
        ∀ n, n / 64 ^ (more + 1) = code →
          low.toNat ≤ n / 64 ^ more % 64 + 0x80 → n / 64 ^ more % 64 + 0x80 ≤ high.toNat →
          n.isValidChar ∧
            String.utf8EncodeChar (Char.ofNat n) = pre ++ continuation more n

theorem pending_boundary : Pending .boundary [] := rfl

theorem encodeChar_ofNat_two {n : Nat} {b : UInt8} (hv : n.isValidChar) (h : 0x80 ≤ n)
    (h' : n < 0x800) (hb : b.toNat = n / 64 + 0xC0) :
    String.utf8EncodeChar (Char.ofNat n) = [b] ++ continuation 0 n := by
  have hn := toNat_ofNat_of_valid hv
  rw [encodeChar_two (by omega) (by omega), hn, ← hb, UInt8.ofNat_toNat]
  rfl

theorem encodeChar_ofNat_three {n : Nat} {b : UInt8} (hv : n.isValidChar) (h : 0x800 ≤ n)
    (h' : n < 0x10000) (hb : b.toNat = n / 4096 + 0xE0) :
    String.utf8EncodeChar (Char.ofNat n) = [b] ++ continuation 1 n := by
  have hn := toNat_ofNat_of_valid hv
  rw [encodeChar_three (by omega) (by omega), hn, ← hb, UInt8.ofNat_toNat]
  rfl

theorem encodeChar_ofNat_four {n : Nat} {b : UInt8} (hv : n.isValidChar) (h : 0x10000 ≤ n)
    (hb : b.toNat = n / 262144 + 0xF0) :
    String.utf8EncodeChar (Char.ofNat n) = [b] ++ continuation 2 n := by
  have hn := toNat_ofNat_of_valid hv
  rw [encodeChar_four (by omega), hn, ← hb, UInt8.ofNat_toNat]
  rfl

theorem lead_eq_char {b : UInt8} {c : Char} (h : lead b = .char c) :
    String.utf8EncodeChar c = [b] := by
  rw [lead] at h
  split at h
  next hb =>
    cases h
    exact encodeChar_ascii (UInt8.lt_iff_toNat_lt.mp hb)
  next =>
    repeat' (split at h)
    all_goals cases h

/-- The first byte of a character of three bytes. -/
theorem pending_three {b low high : UInt8} {code : Nat} (hb : b.toNat = code + 0xE0)
    (hcode : code < 0x10) (hlow : 0x80 ≤ low.toNat) (hhigh : high.toNat ≤ 0xBF)
    (h : ∀ n, n / 4096 = code → low.toNat ≤ n / 64 % 64 + 0x80 →
      n / 64 % 64 + 0x80 ≤ high.toNat → 0x800 ≤ n ∧ n.isValidChar) :
    Pending (.inside code low high 1) [b] := by
  refine ⟨hlow, hhigh, fun n hn hl hh => ?_⟩
  obtain ⟨hmin, hv⟩ := h n hn hl hh
  exact ⟨hv, encodeChar_ofNat_three hv hmin (by omega) (by omega)⟩

/-- The first byte of a character of four bytes. -/
theorem pending_four {b low high : UInt8} {code : Nat} (hb : b.toNat = code + 0xF0)
    (hlow : 0x80 ≤ low.toNat) (hhigh : high.toNat ≤ 0xBF)
    (h : ∀ n, n / 262144 = code → low.toNat ≤ n / 4096 % 64 + 0x80 →
      n / 4096 % 64 + 0x80 ≤ high.toNat → 0x10000 ≤ n ∧ n < 0x110000) :
    Pending (.inside code low high 2) [b] := by
  refine ⟨hlow, hhigh, fun n hn hl hh => ?_⟩
  obtain ⟨hmin, hmax⟩ := h n hn hl hh
  have hv : n.isValidChar := Or.inr (by omega)
  exact ⟨hv, encodeChar_ofNat_four hv hmin (by omega)⟩

/-- The bounds on the second byte leave out overlong forms, surrogates and numbers that
are too large. -/
theorem pending_lead {b : UInt8} {s : State} (h : lead b = .more s) : Pending s [b] := by
  simp only [lead, UInt8.lt_iff_toNat_lt, ← UInt8.toNat_inj, UInt8.reduceToNat] at h
  split at h
  · cases h
  split at h
  · cases h
  split at h
  next h1 h2 =>
    cases h
    refine ⟨Nat.le_refl _, Nat.le_refl _, fun n hn _ _ => ?_⟩
    have hv : n.isValidChar := Or.inl (by omega)
    exact ⟨hv, encodeChar_ofNat_two hv (by omega) (by omega) (by omega)⟩
  split at h
  next h1 =>
    cases h
    refine pending_three h1 (by omega) (Nat.le_of_ble_eq_true rfl) (Nat.le_refl _) ?_
    intro n hn (hlow : 0xA0 ≤ n / 64 % 64 + 0x80) _
    exact ⟨by omega, Or.inl (by omega)⟩
  split at h
  next h1 =>
    cases h
    refine pending_three h1 (by omega) (Nat.le_refl _) (Nat.le_of_ble_eq_true rfl) ?_
    intro n hn _ (hhigh : n / 64 % 64 + 0x80 ≤ 0x9F)
    exact ⟨by omega, Or.inl (by omega)⟩
  split at h
  next h1 h2 h3 h4 h5 =>
    cases h
    refine pending_three (by omega) (by omega) (Nat.le_refl _) (Nat.le_refl _) ?_
    intro n hn _ _
    have hv : n.isValidChar := by
      simp only [Nat.isValidChar]
      omega
    exact ⟨by omega, hv⟩
  split at h
  next h1 =>
    cases h
    refine pending_four h1 (Nat.le_of_ble_eq_true rfl) (Nat.le_refl _) ?_
    intro n hn (hlow : 0x90 ≤ n / 4096 % 64 + 0x80) _
    omega
  split at h
  next h1 h2 =>
    cases h
    refine pending_four (by omega) (Nat.le_refl _) (Nat.le_refl _) ?_
    intro n hn _ _
    omega
  split at h
  next h1 =>
    cases h
    refine pending_four h1 (Nat.le_refl _) (Nat.le_of_ble_eq_true rfl) ?_
    intro n hn _ (hhigh : n / 4096 % 64 + 0x80 ≤ 0x8F)
    omega
  · cases h

theorem pending_more {s s' : State} {pre : List UInt8} {b : UInt8} (hp : Pending s pre)
    (h : step s b = .more s') : Pending s' (pre ++ [b]) := by
  match s, hp, h with
  | .boundary, hp, h =>
      rw [show pre = [] from hp]
      exact pending_lead h
  | .inside code low high (more + 1), ⟨hlow, hhigh, hn⟩, h =>
      simp only [step, UInt8.le_iff_toNat_le] at h
      split at h
      next hb =>
        cases h
        refine ⟨Nat.le_refl _, Nat.le_refl _, fun n hcode hl hh => ?_⟩
        -- The byte holds the next six bits of the number.
        have hnext : n / 64 ^ (more + 1) % 64 + 0x80 = b.toNat := by omega
        have hprev : n / 64 ^ (more + 1 + 1) = code := by
          rw [Nat.pow_succ, ← Nat.div_div_eq_div_mul]
          omega
        obtain ⟨hv, he⟩ := hn n hprev (by omega) (by omega)
        refine ⟨hv, ?_⟩
        rw [he, continuation, hnext, UInt8.ofNat_toNat, List.append_assoc]
        rfl
      · cases h
  | .inside _ _ _ 0, _, h =>
      simp only [step] at h
      split at h <;> cases h

theorem pending_char {s : State} {pre : List UInt8} {b : UInt8} {c : Char} (hp : Pending s pre)
    (h : step s b = .char c) : String.utf8EncodeChar c = pre ++ [b] := by
  match s, hp, h with
  | .boundary, hp, h =>
      rw [show pre = [] from hp]
      exact lead_eq_char h
  | .inside code low high 0, ⟨hlow, hhigh, hn⟩, h =>
      simp only [step, UInt8.le_iff_toNat_le] at h
      split at h
      next hb =>
        rw [← Step.char.inj h]
        have hlast : (code * 64 + (b.toNat - 0x80)) % 64 + 0x80 = b.toNat := by omega
        obtain ⟨-, he⟩ := hn (code * 64 + (b.toNat - 0x80)) (by omega) (by omega) (by omega)
        rw [he, continuation, hlast, UInt8.ofNat_toNat]
      · cases h
  | .inside _ _ _ (_ + 1), _, h =>
      simp only [step] at h
      split at h <;> cases h

/-- No ASCII byte goes on with a character. -/
theorem valid_of_step_ascii {s : State} {pre : List UInt8} {b : UInt8} (hp : Pending s pre)
    (hb : b.toNat < 0x80) (h : step s b ≠ .bad) : Valid (pre ++ [b]) := by
  cases s with
  | boundary =>
      rw [show pre = [] from hp]
      exact valid_ascii hb
  | inside code low high more =>
      have hlow : 0x80 ≤ low.toNat := hp.1
      refine absurd ?_ h
      simp only [step, UInt8.le_iff_toNat_le]
      exact if_neg (by omega)

/-! ## Decoding and encoding -/

theorem flatMap_of_decodeFrom {s : State} {pre bytes : List UInt8} {sound read : Nat}
    {cs : List Char} (hp : Pending s pre) (h : decodeFrom s sound read bytes = .ok cs) :
    pre ++ bytes = cs.flatMap String.utf8EncodeChar := by
  induction bytes generalizing s pre sound read cs with
  | nil =>
      rw [decodeFrom] at h
      split at h
      next hs =>
        subst hs
        cases h
        rw [show pre = [] from hp]
        rfl
      · cases h
  | cons b bs ih =>
      rw [decodeFrom] at h
      split at h
      next c hc =>
        split at h
        next cs' hcs =>
          cases h
          rw [List.flatMap_cons, pending_char hp hc, ← ih pending_boundary hcs]
          simp
        · cases h
      next s' hs =>
        rw [← ih (pending_more hp hs) h]
        simp
      · cases h

theorem encode_of_decode {bytes : List UInt8} {cs : List Char} (h : decode bytes = .ok cs) :
    bytes = encode (String.ofList cs) := by
  rw [encode_ofList, ← flatMap_of_decodeFrom pending_boundary h, List.nil_append]

theorem decodeFrom_continuation {code n more : Nat} {low high : UInt8} {rest : List UInt8}
    {cs : List Char} {sound read : Nat} (hcode : n / 64 ^ (more + 1) = code)
    (hlow : low.toNat ≤ n / 64 ^ more % 64 + 0x80)
    (hhigh : n / 64 ^ more % 64 + 0x80 ≤ high.toNat)
    (hrest : ∀ k, decodeFrom .boundary k k rest = .ok cs) :
    decodeFrom (.inside code low high more) sound read (continuation more n ++ rest)
      = .ok (Char.ofNat n :: cs) := by
  induction more generalizing code low high read with
  | zero =>
      have hb : (UInt8.ofNat (n % 64 + 0x80)).toNat = n % 64 + 0x80 := by
        simp only [UInt8.toNat_ofNat']
        omega
      have hstep : step (.inside code low high 0) (UInt8.ofNat (n % 64 + 0x80))
          = .char (Char.ofNat n) := by
        simp only [step, UInt8.le_iff_toNat_le, hb]
        rw [if_pos (by omega), show code * 64 + (n % 64 + 0x80 - 0x80) = n by omega]
      simp only [continuation, List.singleton_append, decodeFrom, hstep, hrest]
  | succ more ih =>
      have hb : (UInt8.ofNat (n / 64 ^ (more + 1) % 64 + 0x80)).toNat
          = n / 64 ^ (more + 1) % 64 + 0x80 := by
        simp only [UInt8.toNat_ofNat']
        omega
      have hcode' : n / 64 ^ (more + 1) / 64 = code := by
        rw [Nat.div_div_eq_div_mul, ← Nat.pow_succ, hcode]
      have hstep : step (.inside code low high (more + 1))
            (UInt8.ofNat (n / 64 ^ (more + 1) % 64 + 0x80))
          = .more (.inside (n / 64 ^ (more + 1)) 0x80 0xBF more) := by
        simp only [step, UInt8.le_iff_toNat_le, hb]
        rw [if_pos (by omega),
          show code * 64 + (n / 64 ^ (more + 1) % 64 + 0x80 - 0x80) = n / 64 ^ (more + 1) by omega]
      simp only [continuation, List.cons_append, decodeFrom, hstep]
      refine ih rfl ?_ ?_
      · simp only [UInt8.reduceToNat]
        omega
      · simp only [UInt8.reduceToNat]
        omega

theorem lead_one {b : UInt8} (h : b.toNat < 0x80) : lead b = .char (Char.ofNat b.toNat) := by
  rw [lead, if_pos (UInt8.lt_iff_toNat_lt.mpr h)]

theorem lead_two {b : UInt8} {n : Nat} (h : 0x80 ≤ n) (h' : n < 0x800)
    (hb : b.toNat = n / 64 + 0xC0) : lead b = .more (.inside (n / 64) 0x80 0xBF 0) := by
  simp only [lead, UInt8.lt_iff_toNat_lt, UInt8.reduceToNat]
  rw [if_neg (by omega), if_neg (by omega), if_pos (by omega),
    show b.toNat - 0xC0 = n / 64 by omega]

theorem lead_three {b : UInt8} {n : Nat} (hv : n.isValidChar) (h : 0x800 ≤ n) (h' : n < 0x10000)
    (hb : b.toNat = n / 4096 + 0xE0) :
    ∃ low high, lead b = .more (.inside (n / 4096) low high 1) ∧
      low.toNat ≤ n / 64 % 64 + 0x80 ∧ n / 64 % 64 + 0x80 ≤ high.toNat := by
  simp only [lead, UInt8.lt_iff_toNat_lt, ← UInt8.toNat_inj, UInt8.reduceToNat]
  rw [if_neg (by omega), if_neg (by omega), if_neg (by omega)]
  split
  next => exact ⟨0xA0, 0xBF, by rw [show n / 4096 = 0 by omega], by
    simp only [UInt8.reduceToNat]; omega⟩
  next =>
    split
    next =>
      refine ⟨0x80, 0x9F, by rw [show n / 4096 = 0xD by omega], ?_⟩
      -- A surrogate is no character.
      simp only [Nat.isValidChar] at hv
      simp only [UInt8.reduceToNat]
      omega
    next =>
      rw [if_pos (by omega), show b.toNat - 0xE0 = n / 4096 by omega]
      exact ⟨0x80, 0xBF, rfl, by simp only [UInt8.reduceToNat]; omega⟩

theorem lead_four {b : UInt8} {n : Nat} (h : 0x10000 ≤ n) (h' : n < 0x110000)
    (hb : b.toNat = n / 262144 + 0xF0) :
    ∃ low high, lead b = .more (.inside (n / 262144) low high 2) ∧
      low.toNat ≤ n / 4096 % 64 + 0x80 ∧ n / 4096 % 64 + 0x80 ≤ high.toNat := by
  simp only [lead, UInt8.lt_iff_toNat_lt, ← UInt8.toNat_inj, UInt8.reduceToNat]
  rw [if_neg (by omega), if_neg (by omega), if_neg (by omega), if_neg (by omega),
    if_neg (by omega), if_neg (by omega)]
  split
  next => exact ⟨0x90, 0xBF, by rw [show n / 262144 = 0 by omega], by
    simp only [UInt8.reduceToNat]; omega⟩
  next =>
    split
    next =>
      rw [show b.toNat - 0xF0 = n / 262144 by omega]
      exact ⟨0x80, 0xBF, rfl, by simp only [UInt8.reduceToNat]; omega⟩
    next =>
      rw [if_pos (by omega)]
      exact ⟨0x80, 0x8F, by rw [show n / 262144 = 4 by omega], by
        simp only [UInt8.reduceToNat]; omega⟩

theorem decodeFrom_encodeChar {c : Char} {rest : List UInt8} {cs : List Char} {sound read : Nat}
    (hrest : ∀ k, decodeFrom .boundary k k rest = .ok cs) :
    decodeFrom .boundary sound read (String.utf8EncodeChar c ++ rest) = .ok (c :: cs) := by
  have hc : c.toNat < 0x110000 := by
    rcases c.valid with hlt | ⟨-, hlt⟩ <;> simp only [Char.toNat] <;> omega
  rcases Nat.lt_or_ge c.toNat 0x80 with h1 | h1
  · have hb : (UInt8.ofNat c.toNat).toNat = c.toNat := by
      simp only [UInt8.toNat_ofNat']
      omega
    have hstep : step .boundary (UInt8.ofNat c.toNat) = .char c := by
      rw [step, lead_one (by omega), hb, Char.ofNat_toNat]
    simp only [encodeChar_one h1, List.singleton_append, decodeFrom, hstep, hrest]
  rcases Nat.lt_or_ge c.toNat 0x800 with h2 | h2
  · have hb : (UInt8.ofNat (c.toNat / 64 + 0xC0)).toNat = c.toNat / 64 + 0xC0 := by
      simp only [UInt8.toNat_ofNat']
      omega
    rw [encodeChar_two h1 h2, List.cons_append, decodeFrom, step, lead_two h1 h2 hb]
    dsimp only
    rw [decodeFrom_continuation (n := c.toNat) (by simp) (by simp only [UInt8.reduceToNat]; omega)
      (by simp only [UInt8.reduceToNat]; omega) hrest, Char.ofNat_toNat]
  rcases Nat.lt_or_ge c.toNat 0x10000 with h3 | h3
  · have hb : (UInt8.ofNat (c.toNat / 4096 + 0xE0)).toNat = c.toNat / 4096 + 0xE0 := by
      simp only [UInt8.toNat_ofNat']
      omega
    obtain ⟨low, high, hlead, hlow, hhigh⟩ := lead_three c.valid h2 h3 hb
    rw [encodeChar_three h2 h3, List.cons_append, decodeFrom, step, hlead]
    dsimp only
    rw [decodeFrom_continuation (n := c.toNat) (by simp) (by simpa using hlow)
      (by simpa using hhigh) hrest, Char.ofNat_toNat]
  · have hb : (UInt8.ofNat (c.toNat / 262144 + 0xF0)).toNat = c.toNat / 262144 + 0xF0 := by
      simp only [UInt8.toNat_ofNat']
      omega
    obtain ⟨low, high, hlead, hlow, hhigh⟩ := lead_four h3 hc hb
    rw [encodeChar_four h3, List.cons_append, decodeFrom, step, hlead]
    dsimp only
    rw [decodeFrom_continuation (n := c.toNat) (by simp) (by simpa using hlow)
      (by simpa using hhigh) hrest, Char.ofNat_toNat]

theorem decodeFrom_flatMap (cs : List Char) (sound read : Nat) :
    decodeFrom .boundary sound read (cs.flatMap String.utf8EncodeChar) = .ok cs := by
  induction cs generalizing sound read with
  | nil => rfl
  | cons c cs ih => exact decodeFrom_encodeChar fun k => ih k k

theorem decode_encode (text : String) : decode (encode text) = .ok text.toList :=
  decodeFrom_flatMap text.toList 0 0

theorem valid_iff_decode {bytes : List UInt8} : Valid bytes ↔ ∃ cs, decode bytes = .ok cs := by
  constructor
  · rintro ⟨text, rfl⟩
    exact ⟨_, decode_encode text⟩
  · rintro ⟨cs, h⟩
    exact ⟨_, encode_of_decode h⟩

theorem encode_inj {s t : String} (h : encode s = encode t) : s = t := by
  have hs := decode_encode s
  rw [h, decode_encode t] at hs
  exact String.toList_inj.mp (Except.ok.inj hs).symm

end Utf8

end Jstn
