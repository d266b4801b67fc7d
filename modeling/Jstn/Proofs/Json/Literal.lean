import Jstn.Proofs.Json.Grammar
import Jstn.Proofs.Text.Utf8
import Mathlib.Data.List.Induction

/-!
# What the literal machines read

Skipping a literal reads exactly a body and its closing quote
(`drive_skip_of_body`, `body_of_drive_skip`).  Decoding one reads exactly the
bodies that spell bytes, and gives these bytes (`drive_decode_of_spells`,
`spells_of_drive_decode`).

In both machines an escape goes through several states.  `Skip.Inside` and
`Decode.Inside` say which bytes of it have led to a state, so a run from any state
is a run from the last plain one with these bytes before it.

`read_of_denotes` puts the two together with UTF-8: reading a literal gives the
text that its body denotes, and fails if it denotes none.
-/

namespace Jstn

namespace Json

namespace Literal

/-! ## Hexadecimal digits -/

/-- What digits add up to, if all are hexadecimal. -/
def hexSum? (ds : List UInt8) : Option Nat :=
  ds.foldl (fun n d => n.bind fun n => (Byte.hexValue? d).map fun k => n * 16 + k) (some 0)

theorem hexSum?_append (ds : List UInt8) (d : UInt8) :
    hexSum? (ds ++ [d])
      = (hexSum? ds).bind fun n => (Byte.hexValue? d).map fun k => n * 16 + k := by
  simp [hexSum?]

theorem code_of_hexSum? {ds : List UInt8} {n : Nat} (hl : ds.length = 4)
    (h : hexSum? ds = some n) : HexCode ds n := by
  obtain ⟨a, b, c, d, rfl⟩ : ∃ a b c d, ds = [a, b, c, d] := by
    match ds, hl with
    | [a, b, c, d], _ => exact ⟨a, b, c, d, rfl⟩
  simp only [hexSum?, List.foldl_cons, List.foldl_nil, Option.bind_some, Nat.zero_mul,
    Nat.zero_add, Option.bind_eq_some_iff, Option.map_eq_some_iff] at h
  obtain ⟨_, ⟨_, ⟨_, ⟨w, hw, rfl⟩, x, hx, rfl⟩, y, hy, rfl⟩, z, hz, rfl⟩ := h
  exact .digits hw hx hy hz

theorem hexSum?_isSome (ds : List UInt8) :
    (hexSum? ds).isSome = ds.all fun d => (Byte.hexValue? d).isSome := by
  induction ds using List.reverseRecOn with
  | nil => rfl
  | append_singleton ds d ih =>
      rw [hexSum?_append, List.all_append, ← ih]
      cases hexSum? ds <;> cases hd : Byte.hexValue? d <;> simp [hd]

/-! ## Skipping -/

theorem Skip.step_plain {b : UInt8} (h : IsPlain b) : Skip.step .plain b = .more .plain := by
  obtain ⟨hq, hb, hc⟩ := h
  simp [Skip.step, hq, hb, hc]

theorem drive_skip_of_body {body : List UInt8} (h : Body body) (p : Position)
    (rest : List UInt8) :
    drive Skip.step Skip.finish .plain p (body ++ Byte.quote :: rest)
      = .ok ((), ⟨(p.afterAll body).after Byte.quote, rest⟩) := by
  induction h generalizing p with
  | nil => rfl
  | plain hb _ ih =>
      rw [List.cons_append, drive, Skip.step_plain hb]
      exact ih (p.after _)
  | @escape e c body he _ ih =>
      have hstep : Skip.step .escape e = .more .plain := by
        rw [Skip.step, if_pos (by rw [he]; rfl)]
      rw [List.cons_append, List.cons_append, drive, show Skip.step .plain Byte.backslash
        = .more .escape from rfl]
      simp only
      rw [drive, hstep]
      exact ih _
  | @code hex body n hcode _ ih =>
      cases hcode with
      | digits ha hb hc hd =>
          have h1 : Skip.step .plain Byte.backslash = .more .escape := rfl
          have h2 : Skip.step .escape Byte.letterU = .more (.hex 3 true) := rfl
          rw [List.cons_append, drive, h1]
          simp only [List.cons_append, List.nil_append]
          rw [drive, h2]
          simp only [drive, Skip.step, ha, hb, hc, hd, Option.isSome_some, Bool.and_self, if_true]
          exact ih _

/-- The bytes of an escape that have led to a state. -/
def Skip.Inside : Skip → List UInt8 → Prop
  | plain, pre => pre = []
  | escape, pre => pre = [Byte.backslash]
  | hex left sound, pre => ∃ ds, pre = Byte.backslash :: Byte.letterU :: ds ∧
      ds.length + left = 3 ∧ sound = ds.all fun d => (Byte.hexValue? d).isSome

theorem Skip.inside_plain : Skip.Inside .plain [] := rfl

theorem Skip.step_done {s : Skip} {b : UInt8} (h : s.step b = .done ()) :
    s = .plain ∧ b = Byte.quote := by
  match s with
  | .plain =>
      rw [Skip.step] at h
      split at h
      next hb => exact ⟨rfl, hb⟩
      next =>
        repeat' (split at h)
        all_goals cases h
  | .escape =>
      rw [Skip.step] at h
      repeat' (split at h)
      all_goals cases h
  | .hex (_ + 1) _ => cases h
  | .hex 0 _ =>
      simp only [Skip.step] at h
      split at h <;> cases h

theorem Skip.step_ne_stop {s : Skip} {b : UInt8} : s.step b ≠ .stop () := by
  intro h
  match s with
  | .plain | .escape =>
      rw [Skip.step] at h
      repeat' (split at h)
      all_goals cases h
  | .hex (_ + 1) _ => cases h
  | .hex 0 _ =>
      simp only [Skip.step] at h
      split at h <;> cases h

/-- A byte leads on inside an escape, or ends a piece of a body. -/
theorem Skip.inside_step {s q : Skip} {pre : List UInt8} {b : UInt8} (hs : s.Inside pre)
    (h : s.step b = .more q) :
    q.Inside (pre ++ [b]) ∨ (q = .plain ∧ ∀ body, Body body → Body (pre ++ b :: body)) := by
  match s, hs with
  | .plain, hs =>
      rw [show pre = [] from hs]
      rw [Skip.step] at h
      split at h
      next => cases h
      next hq =>
        split at h
        next hb =>
          cases h
          exact Or.inl (by rw [hb]; rfl)
        next hb =>
          split at h
          next => cases h
          next hc =>
            cases h
            exact Or.inr ⟨rfl, fun body hbody => .plain ⟨hq, hb, by simpa using hc⟩ hbody⟩
  | .escape, hs =>
      rw [show pre = [Byte.backslash] from hs]
      rw [Skip.step] at h
      split at h
      next he =>
        cases h
        obtain ⟨c, hc⟩ := Option.isSome_iff_exists.mp he
        exact Or.inr ⟨rfl, fun body hbody => .escape hc hbody⟩
      next =>
        split at h
        next hu =>
          cases h
          exact Or.inl ⟨[], by rw [hu]; rfl, rfl, rfl⟩
        next => cases h
  | .hex (left + 1) sound, ⟨ds, hpre, hl, hsound⟩ =>
      cases h
      refine Or.inl ⟨ds ++ [b], by rw [hpre]; rfl, ?_, by rw [hsound, List.all_append]; simp⟩
      simp only [List.length_append, List.length_singleton]
      omega
  | .hex 0 sound, ⟨ds, hpre, hl, hsound⟩ =>
      simp only [Skip.step] at h
      split at h
      next hok =>
        cases h
        have hall : (hexSum? (ds ++ [b])).isSome := by
          rw [hexSum?_isSome, List.all_append, ← hsound]
          simpa using hok
        obtain ⟨n, hn⟩ := Option.isSome_iff_exists.mp hall
        have hcode := code_of_hexSum? (by simpa using hl) hn
        refine Or.inr ⟨rfl, fun body hbody => ?_⟩
        rw [hpre]
        simpa using Body.code hcode hbody
      next => cases h

theorem body_of_drive_skip {s : Skip} {pre bytes : List UInt8} {p : Position} {c : Cursor}
    (hs : s.Inside pre) (h : drive Skip.step Skip.finish s p bytes = .ok ((), c)) :
    ∃ body, pre ++ bytes = body ++ Byte.quote :: c.rest ∧ Body body := by
  induction bytes generalizing s pre p with
  | nil => cases h
  | cons b bytes ih =>
      rw [drive] at h
      split at h
      next q hq =>
        rcases Skip.inside_step hs hq with hin | ⟨rfl, hbody⟩
        · obtain ⟨body, hx, hb⟩ := ih hin h
          exact ⟨body, by rw [← hx, List.append_assoc]; rfl, hb⟩
        · obtain ⟨body, hx, hb⟩ := ih Skip.inside_plain h
          rw [List.nil_append] at hx
          exact ⟨pre ++ b :: body, by rw [hx, List.append_assoc]; rfl, hbody body hb⟩
      next hq =>
        obtain ⟨rfl, rfl⟩ := Skip.step_done hq
        obtain ⟨-, rfl⟩ := Prod.mk.inj (Except.ok.inj h)
        exact ⟨[], by rw [show pre = [] from hs], .nil⟩
      next hq => exact absurd hq Skip.step_ne_stop
      next => cases h

/-! ## Decoding -/

theorem Decode.step_plain {acc : List UInt8} {b : UInt8} (h : IsPlain b) :
    Decode.step ⟨acc, .plain⟩ b = .more ⟨b :: acc, .plain⟩ := by
  obtain ⟨hq, hb, hc⟩ := h
  simp [Decode.step, hq, hb, hc, Decode.push]

/-- The state after the first two bytes of a hexadecimal escape and its digits. -/
theorem Decode.drive_hex {hex : List UInt8} {n : Nat} (h : HexCode hex n) (acc : List UInt8)
    (high : Option Nat) (p : Position) (rest : List UInt8) :
    drive Decode.step Decode.finish ⟨acc, .hex high 3 (some 0)⟩ p (hex ++ rest)
      = match Decode.closeHex ⟨acc, .hex high 0 none⟩ high (some n) with
        | .more s => drive Decode.step Decode.finish s (p.afterAll hex) rest
        | .done a => .ok (a, ⟨p.afterAll hex, rest⟩)
        | .stop a => .ok (a, ⟨p.afterAll hex, rest⟩)
        | .fail fault _ => .error (fault, p.afterAll hex) := by
  cases h with
  | @digits a b c d w x y z ha hb hc hd =>
      simp only [List.cons_append, List.nil_append, drive, Decode.step, ha, hb, hc, hd,
        Option.bind_some, Option.map_some, Nat.zero_mul, Nat.zero_add]
      generalize ((w * 16 + x) * 16 + y) * 16 + z = n
      cases high with
      | none =>
          simp only [Decode.closeHex]
          cases isLowSurrogate n <;> cases isHighSurrogate n <;> rfl
      | some high =>
          simp only [Decode.closeHex]
          cases isLowSurrogate n <;> rfl

theorem Decode.pushCode_eq (s : Decode) (n : Nat) :
    s.pushCode n = ⟨(String.utf8EncodeChar (Char.ofNat n)).reverse ++ s.decoded, .plain⟩ := rfl

/-- The first two bytes of a hexadecimal escape. -/
theorem Decode.drive_code (acc : List UInt8) (p : Position) (bytes : List UInt8) :
    drive Decode.step Decode.finish ⟨acc, .plain⟩ p (Byte.backslash :: Byte.letterU :: bytes)
      = drive Decode.step Decode.finish ⟨acc, .hex none 3 (some 0)⟩
          ((p.after Byte.backslash).after Byte.letterU) bytes := rfl

/-- The first two bytes of the second half of a pair. -/
theorem Decode.drive_pair (acc : List UInt8) (high : Nat) (p : Position) (bytes : List UInt8) :
    drive Decode.step Decode.finish ⟨acc, .pairBackslash high⟩ p
        (Byte.backslash :: Byte.letterU :: bytes)
      = drive Decode.step Decode.finish ⟨acc, .hex (some high) 3 (some 0)⟩
          ((p.after Byte.backslash).after Byte.letterU) bytes := rfl

theorem not_low_of_high {n : Nat} (h : isHighSurrogate n = true) : isLowSurrogate n = false := by
  simp only [isHighSurrogate, Bool.and_eq_true, decide_eq_true_eq] at h
  simp only [isLowSurrogate, Bool.and_eq_false_iff, decide_eq_false_iff_not]
  omega

theorem drive_decode_of_spells {body bytes : List UInt8} (h : Spells body bytes)
    (acc : List UInt8) (p : Position) (rest : List UInt8) :
    drive Decode.step Decode.finish ⟨acc, .plain⟩ p (body ++ Byte.quote :: rest)
      = .ok (acc.reverse ++ bytes, ⟨(p.afterAll body).after Byte.quote, rest⟩) := by
  induction h generalizing acc p with
  | nil => simp [drive, Decode.step, Position.afterAll]
  | plain hb _ ih =>
      rw [List.cons_append, drive, Decode.step_plain hb]
      simp only
      rw [ih]
      simp [Position.afterAll]
  | @escape e c body bytes he _ ih =>
      have h1 : Decode.step ⟨acc, .plain⟩ Byte.backslash = .more ⟨acc, .escape⟩ := rfl
      have h2 : Decode.step ⟨acc, .escape⟩ e = .more ⟨c :: acc, .plain⟩ := by
        simp [Decode.step, he, Decode.push]
      rw [List.cons_append, List.cons_append, drive, h1]
      simp only
      rw [drive, h2]
      simp only
      rw [ih]
      simp [Position.afterAll]
  | @code hex body bytes n hcode hhigh hlow _ ih =>
      rw [List.cons_append, List.cons_append, Decode.drive_code, List.append_assoc,
        Decode.drive_hex hcode]
      simp only [Decode.closeHex, hlow, hhigh, Decode.pushCode_eq, Bool.false_eq_true, if_false]
      rw [ih]
      simp [Position.afterAll]
  | @pair hex hex' body bytes high low hcode hhigh hcode' hlow _ ih =>
      have hnl : isLowSurrogate high = false := not_low_of_high hhigh
      rw [List.cons_append, List.cons_append, Decode.drive_code, List.append_assoc,
        Decode.drive_hex hcode]
      simp only [Decode.closeHex, hnl, hhigh, List.cons_append, Bool.false_eq_true, if_false,
        if_true]
      rw [Decode.drive_pair, List.append_assoc, Decode.drive_hex hcode']
      simp only [Decode.closeHex, hlow, Decode.pushCode_eq, if_true]
      rw [ih]
      simp [Position.afterAll]

/-- The bytes of an escape that have led to a state. -/
def Decode.Inside : Point → List UInt8 → Prop
  | .plain, pre => pre = []
  | .escape, pre => pre = [Byte.backslash]
  | .hex none left value, pre => ∃ ds, pre = Byte.backslash :: Byte.letterU :: ds ∧
      ds.length + left = 3 ∧ value = hexSum? ds
  | .pairBackslash high, pre => ∃ hex, pre = Byte.backslash :: Byte.letterU :: hex ∧
      HexCode hex high ∧ isHighSurrogate high = true
  | .pairLetter high, pre => ∃ hex,
      pre = Byte.backslash :: Byte.letterU :: (hex ++ [Byte.backslash]) ∧
      HexCode hex high ∧ isHighSurrogate high = true
  | .hex (some high) left value, pre => ∃ hex ds,
      pre = Byte.backslash :: Byte.letterU ::
        (hex ++ Byte.backslash :: Byte.letterU :: ds) ∧
      HexCode hex high ∧ isHighSurrogate high = true ∧ ds.length + left = 3 ∧ value = hexSum? ds

theorem Decode.inside_plain : Decode.Inside .plain [] := rfl

theorem Decode.step_done {s : Decode} {b : UInt8} {bytes : List UInt8}
    (h : s.step b = .done bytes) :
    s.point = .plain ∧ b = Byte.quote ∧ bytes = s.decoded.reverse := by
  match s with
  | ⟨acc, .plain⟩ =>
      simp only [Decode.step] at h
      split at h
      next hb =>
        cases h
        exact ⟨rfl, hb, rfl⟩
      next =>
        repeat' (split at h)
        all_goals cases h
  | ⟨acc, .escape⟩ | ⟨acc, .pairBackslash _⟩ | ⟨acc, .pairLetter _⟩ | ⟨acc, .hex _ (_ + 1) _⟩ =>
      simp only [Decode.step] at h
      repeat' (split at h)
      all_goals cases h
  | ⟨acc, .hex _ 0 _⟩ =>
      simp only [Decode.step, Decode.closeHex] at h
      repeat' (split at h)
      all_goals cases h

theorem Decode.step_ne_stop {s : Decode} {b : UInt8} {bytes : List UInt8} :
    s.step b ≠ .stop bytes := by
  intro h
  match s with
  | ⟨acc, .plain⟩ | ⟨acc, .escape⟩ | ⟨acc, .pairBackslash _⟩ | ⟨acc, .pairLetter _⟩
  | ⟨acc, .hex _ (_ + 1) _⟩ =>
      simp only [Decode.step] at h
      repeat' (split at h)
      all_goals cases h
  | ⟨acc, .hex _ 0 _⟩ =>
      simp only [Decode.step, Decode.closeHex] at h
      repeat' (split at h)
      all_goals cases h

/-- A byte leads on inside an escape, or ends a piece of a body that spells some
bytes. -/
def Decode.Advances (s q : Decode) (pre : List UInt8) (b : UInt8) : Prop :=
  (q.decoded = s.decoded ∧ Decode.Inside q.point (pre ++ [b])) ∨
    (q.point = .plain ∧ ∃ out, q.decoded = out.reverse ++ s.decoded ∧
      ∀ body bytes, Spells body bytes → Spells (pre ++ b :: body) (out ++ bytes))

theorem Decode.advances_plain {acc : List UInt8} {q : Decode} {b : UInt8}
    (h : Decode.step ⟨acc, .plain⟩ b = .more q) : Decode.Advances ⟨acc, .plain⟩ q [] b := by
  simp only [Decode.step] at h
  split at h
  next => cases h
  next hq =>
    split at h
    next hb =>
      cases h
      exact Or.inl ⟨rfl, by rw [hb]; rfl⟩
    next hb =>
      split at h
      next => cases h
      next hc =>
        cases h
        exact Or.inr ⟨rfl, [b], rfl, fun _ _ hbody => .plain ⟨hq, hb, by simpa using hc⟩ hbody⟩

theorem Decode.advances_escape {acc : List UInt8} {q : Decode} {b : UInt8}
    (h : Decode.step ⟨acc, .escape⟩ b = .more q) :
    Decode.Advances ⟨acc, .escape⟩ q [Byte.backslash] b := by
  simp only [Decode.step] at h
  split at h
  next c hc =>
    cases h
    exact Or.inr ⟨rfl, [c], rfl, fun _ _ hbody => .escape hc hbody⟩
  next =>
    split at h
    next hu =>
      cases h
      exact Or.inl ⟨rfl, [], by rw [hu]; rfl, rfl, rfl⟩
    next => cases h

/-- The last digit of an escape that stands alone or begins a pair. -/
theorem Decode.advances_code {acc ds : List UInt8} {q : Decode} {b : UInt8}
    (hl : ds.length + 0 = 3) (h : Decode.step ⟨acc, .hex none 0 (hexSum? ds)⟩ b = .more q) :
    Decode.Advances ⟨acc, .hex none 0 (hexSum? ds)⟩ q
      (Byte.backslash :: Byte.letterU :: ds) b := by
  simp only [Decode.step, ← hexSum?_append, Decode.closeHex] at h
  split at h
  next => cases h
  next n hn =>
    have hcode := code_of_hexSum? (by simpa using hl) hn
    split at h
    next => cases h
    next hlow =>
      split at h
      next hhigh =>
        cases h
        exact Or.inl ⟨rfl, ds ++ [b], rfl, hcode, hhigh⟩
      next hhigh =>
        rw [Decode.pushCode_eq] at h
        obtain rfl := Reply.more.inj h
        refine Or.inr ⟨rfl, _, rfl, fun body bytes hbody => ?_⟩
        simpa using Spells.code hcode (by simpa using hhigh) (by simpa using hlow) hbody
  next => contradiction

/-- The last digit of the second half of a pair. -/
theorem Decode.advances_pair {acc hex ds : List UInt8} {high : Nat} {q : Decode} {b : UInt8}
    (hcode : HexCode hex high) (hhigh : isHighSurrogate high = true) (hl : ds.length + 0 = 3)
    (h : Decode.step ⟨acc, .hex (some high) 0 (hexSum? ds)⟩ b = .more q) :
    Decode.Advances ⟨acc, .hex (some high) 0 (hexSum? ds)⟩ q
      (Byte.backslash :: Byte.letterU :: (hex ++ Byte.backslash :: Byte.letterU :: ds)) b := by
  simp only [Decode.step, ← hexSum?_append, Decode.closeHex] at h
  split at h
  next => cases h
  next => contradiction
  next high' n heq hn =>
    cases heq
    split at h
    next hlow =>
      rw [Decode.pushCode_eq] at h
      obtain rfl := Reply.more.inj h
      have hcode' := code_of_hexSum? (by simpa using hl) hn
      refine Or.inr ⟨rfl, _, rfl, fun body bytes hbody => ?_⟩
      simpa using Spells.pair hcode hhigh hcode' hlow hbody
    next => cases h

theorem Decode.inside_step {s q : Decode} {pre : List UInt8} {b : UInt8}
    (hs : Decode.Inside s.point pre) (h : s.step b = .more q) : Decode.Advances s q pre b := by
  match s, hs with
  | ⟨acc, .plain⟩, hs =>
      rw [show pre = [] from hs]
      exact Decode.advances_plain h
  | ⟨acc, .escape⟩, hs =>
      rw [show pre = [Byte.backslash] from hs]
      exact Decode.advances_escape h
  | ⟨acc, .hex none (left + 1) value⟩, ⟨ds, hpre, hl, hvalue⟩ =>
      cases h
      refine Or.inl ⟨rfl, ds ++ [b], by rw [hpre]; rfl, ?_, by rw [hexSum?_append, hvalue]⟩
      simp only [List.length_append, List.length_singleton]
      omega
  | ⟨acc, .hex (some high) (left + 1) value⟩, ⟨hex, ds, hpre, hcode, hhigh, hl, hvalue⟩ =>
      cases h
      refine Or.inl ⟨rfl, hex, ds ++ [b], by rw [hpre]; simp, hcode, hhigh, ?_,
        by rw [hexSum?_append, hvalue]⟩
      simp only [List.length_append, List.length_singleton]
      omega
  | ⟨acc, .hex none 0 value⟩, ⟨ds, hpre, hl, hvalue⟩ =>
      subst hpre hvalue
      exact Decode.advances_code hl h
  | ⟨acc, .hex (some high) 0 value⟩, ⟨hex, ds, hpre, hcode, hhigh, hl, hvalue⟩ =>
      subst hpre hvalue
      exact Decode.advances_pair hcode hhigh hl h
  | ⟨acc, .pairBackslash high⟩, ⟨hex, hpre, hcode, hhigh⟩ =>
      simp only [Decode.step] at h
      split at h
      next hb =>
        cases h
        exact Or.inl ⟨rfl, hex, by rw [hpre, hb]; rfl, hcode, hhigh⟩
      next => cases h
  | ⟨acc, .pairLetter high⟩, ⟨hex, hpre, hcode, hhigh⟩ =>
      simp only [Decode.step] at h
      split at h
      next hb =>
        cases h
        exact Or.inl ⟨rfl, hex, [], by rw [hpre, hb]; simp, hcode, hhigh, rfl, rfl⟩
      next => cases h

theorem spells_of_drive_decode {s : Decode} {pre bytes out : List UInt8} {p : Position}
    {c : Cursor} (hs : Decode.Inside s.point pre)
    (h : drive Decode.step Decode.finish s p bytes = .ok (out, c)) :
    ∃ body spelled, pre ++ bytes = body ++ Byte.quote :: c.rest ∧
      out = s.decoded.reverse ++ spelled ∧ Spells body spelled := by
  induction bytes generalizing s pre p with
  | nil => cases h
  | cons b bytes ih =>
      rw [drive] at h
      split at h
      next q hq =>
        rcases Decode.inside_step hs hq with ⟨hd, hin⟩ | ⟨hplain, piece, hd, hbody⟩
        · obtain ⟨body, spelled, hx, ho, hb⟩ := ih hin h
          exact ⟨body, spelled, by rw [← hx, List.append_assoc]; rfl, by rw [ho, hd], hb⟩
        · have hin : Decode.Inside q.point [] := by
            rw [hplain]
            exact Decode.inside_plain
          obtain ⟨body, spelled, hx, ho, hb⟩ := ih hin h
          rw [List.nil_append] at hx
          refine ⟨pre ++ b :: body, piece ++ spelled, by rw [hx, List.append_assoc]; rfl, ?_,
            hbody body spelled hb⟩
          rw [ho, hd, List.reverse_append, List.reverse_reverse, List.append_assoc]
      next hq =>
        obtain ⟨hplain, rfl, rfl⟩ := Decode.step_done hq
        obtain ⟨rfl, rfl⟩ := Prod.mk.inj (Except.ok.inj h)
        rw [hplain] at hs
        exact ⟨[], [], by rw [show pre = [] from hs], by simp, .nil⟩
      next hq => exact absurd hq Decode.step_ne_stop
      next => cases h

/-! ## Bodies and the texts they denote -/

theorem Spells.body {body bytes : List UInt8} (h : Spells body bytes) : Body body := by
  induction h with
  | nil => exact .nil
  | plain hb _ ih => exact .plain hb ih
  | escape he _ ih => exact .escape he ih
  | code hcode _ _ _ ih => exact .code hcode ih
  | pair hcode _ hcode' _ _ ih => exact .code hcode (.code hcode' ih)

/-- The first body before a quote is the only one. -/
theorem body_unique {body body' rest rest' : List UInt8} (h : Body body) (h' : Body body')
    (he : body ++ Byte.quote :: rest = body' ++ Byte.quote :: rest') :
    body = body' ∧ rest = rest' := by
  have hd := drive_skip_of_body h .start rest
  rw [he, drive_skip_of_body h' .start rest'] at hd
  have hc := (Prod.mk.inj (Except.ok.inj hd)).2
  obtain rfl : rest' = rest := congrArg Cursor.rest hc
  exact ⟨List.append_cancel_right he, rfl⟩

theorem spells_unique {body bytes bytes' : List UInt8} (h : Spells body bytes)
    (h' : Spells body bytes') : bytes = bytes' := by
  have hd := drive_decode_of_spells h [] .start []
  rw [drive_decode_of_spells h' [] .start []] at hd
  exact ((Prod.mk.inj (Except.ok.inj hd)).1).symm

theorem exists_denotes {body : List UInt8} (h : Body body) : ∃ text, Denotes body text := by
  by_cases hs : ∃ s, Spells body (Utf8.encode s)
  · obtain ⟨s, hs⟩ := hs
    refine ⟨some s, h, fun t => ⟨fun ht => Option.some.inj ht ▸ hs, fun ht => ?_⟩⟩
    exact congrArg some (Utf8.encode_inj (spells_unique hs ht))
  · exact ⟨none, h, fun t => ⟨nofun, fun ht => absurd ⟨t, ht⟩ hs⟩⟩

theorem read_of_denotes_some {body : List UInt8} {s : String} (h : Denotes body (some s))
    (p : Position) (rest : List UInt8) :
    read ⟨p, body ++ Byte.quote :: rest⟩
      = .ok (s, ⟨(p.afterAll body).after Byte.quote, rest⟩) := by
  have hs := (h.2 s).mp rfl
  simp only [read, Decode.start, drive_decode_of_spells hs, text, List.reverse_nil,
    List.nil_append, Utf8.decode_encode, String.ofList_toList]

/-- What is read is a literal that denotes it. -/
theorem denotes_of_read {p : Position} {bytes : List UInt8} {s : String} {c : Cursor}
    (h : read ⟨p, bytes⟩ = .ok (s, c)) :
    ∃ body, bytes = body ++ Byte.quote :: c.rest ∧ Denotes body (some s) := by
  rw [read] at h
  split at h
  next decoded c' hd =>
    rw [text] at h
    split at h
    next s' ht =>
      obtain ⟨rfl, rfl⟩ := Prod.mk.inj (Except.ok.inj h)
      split at ht
      next cs hcs =>
        cases ht
        obtain ⟨body, spelled, hx, ho, hb⟩ := spells_of_drive_decode Decode.inside_plain hd
        rw [List.nil_append] at hx
        obtain rfl : decoded = spelled := ho
        rw [Utf8.encode_of_decode hcs] at hb
        refine ⟨body, hx, hb.body, fun t => ⟨fun ht => Option.some.inj ht ▸ hb, fun ht => ?_⟩⟩
        exact congrArg some (Utf8.encode_inj (spells_unique hb ht))
      next => cases ht
    next => cases h
  next => cases h

theorem read_of_denotes_none {body : List UInt8} (h : Denotes body none) (p : Position)
    (rest : List UInt8) : ∃ e, read ⟨p, body ++ Byte.quote :: rest⟩ = .error e := by
  cases hr : read ⟨p, body ++ Byte.quote :: rest⟩ with
  | error e => exact ⟨e, rfl⟩
  | ok r =>
      obtain ⟨body', hx, hd⟩ := denotes_of_read hr
      obtain ⟨rfl, -⟩ := body_unique h.1 hd.1 hx
      exact nomatch (h.2 r.1).mpr ((hd.2 r.1).mp rfl)

end Literal

end Json

end Jstn
