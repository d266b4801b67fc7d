import Jstn.Embed.SchemaText
import Jstn.Proofs.Embed.Reader
import Jstn.Proofs.Json.Writing
import Jstn.Proofs.Parse.WellFormed

/-!
# Schemas in strings

An embedded schema is the text of a schema in a string.  Nothing depends on how the string
is written: its literal may hold raw characters and escapes in any mix, and blanks may stand
around it (`Transparent.reads`).  The text in it is all that matters, and what is wrong with
that text is what the error says.

A schema is written as the literal of its canonical text, so it is read back as that text is
parsed.  For a schema that came from a text this is the schema itself
(`Transparent.restores`).

An optional schema is read and written the same way.  In addition there is null, which is
what stands for no schema and nothing else (`embedding_transparent`).
-/

namespace Jstn

open Json (Blanks Cursor Literal.Denotes Literal.quoted Text Written)

namespace Embed

/-- The error over a string that is not the text of a schema. -/
def schemaError (e : ParseError) : Error := ⟨.schema e, none⟩

/-- Reading and writing of schemas that see no more of a string than its text.  `wrap` makes
a schema what is read and written. -/
structure Transparent {α : Type} (read : List UInt8 → Except Error α) (write : α → String)
    (wrap : Schema → α) : Prop where
  /-- A string is read as its text is parsed, whatever literal it is written as. -/
  reads : ∀ s document, Written (.string (some s)) document →
    read document = ((parse s).map wrap).mapError schemaError
  /-- A schema is read from nothing but strings. -/
  only : ∀ document t, read document = .ok (wrap t) →
    ∃ s, Written (.string (some s)) document ∧ parse s = .ok t
  /-- A schema is written as a literal of its canonical text. -/
  writes : ∀ t, Text (.string (some t.canonical)) (Utf8.encode (write (wrap t)))
  /-- What is written is read as the canonical text is parsed. -/
  rereads : ∀ t, read (Utf8.encode (write (wrap t))) =
    ((parse t.canonical).map wrap).mapError schemaError
  /-- A schema that came from a text is read back. -/
  restores : ∀ t source, parse source = .ok t → read (Utf8.encode (write (wrap t))) = .ok (wrap t)

/-! ## Reading -/

/-- What a reader makes of a text in a string. -/
def ofText {α : Type} (wrap : Schema → α) (s : String) (c : Cursor) : Outcome α :=
  match parse s with
  | .ok t => .ok (wrap t, c)
  | .error e => .error (.floating (.schema e) c)

/-- A reader that reads schemas from strings and from nothing else. -/
structure ReadsText {α : Type} (reader : Cursor → Outcome α) (wrap : Schema → α) : Prop where
  reads : ∀ {w body s}, Blanks w → Literal.Denotes body (some s) → ∀ p rest,
    reader ⟨p, (w ++ Literal.quoted body) ++ rest⟩ =
      ofText wrap s ⟨p.afterAll (w ++ Literal.quoted body), rest⟩
  only : ∀ {c c' t}, reader c = .ok (wrap t, c') → ∃ w body s, Blanks w ∧
    Literal.Denotes body (some s) ∧ c.rest = w ++ (Literal.quoted body ++ c'.rest) ∧
      parse s = .ok t

theorem readsText_readSchema : ReadsText readSchema id where
  reads := by
    intro w body s hw hbody p rest
    have hread : Takes readString (w ++ Literal.quoted body) s :=
      (takes_readString hbody).of_blanks skipsBlanks_readString hw rfl
    simp only [readSchema, hread p rest, ofText]
    cases parse s <;> rfl
  only := by
    intro c c' t h
    unfold readSchema at h
    split at h
    · cases h
    next s _ hread =>
      split at h
      next ht =>
        cases h
        obtain ⟨w, body, hw, hbody, hrest⟩ := exists_literal_of_readString hread
        exact ⟨w, body, s, hw, hbody, hrest, ht⟩
      next => cases h

theorem atNull_append {w xs : List UInt8} {b : UInt8} (p : Json.Position) (hw : Blanks w)
    (hb : Json.Byte.isBlank b = false) : atNull ⟨p, w ++ b :: xs⟩ = decide (b = 0x6E) := by
  simp [atNull, Cursor.skipBlanks_append_cons p hw hb]

theorem readsText_readOptionalSchema : ReadsText readOptionalSchema some where
  reads := by
    intro w body s hw hbody p rest
    have hnull : atNull ⟨p, (w ++ Literal.quoted body) ++ rest⟩ = false := by
      rw [List.append_assoc]
      exact atNull_append p hw rfl
    rw [readOptionalSchema, hnull, if_neg Bool.false_ne_true,
      readsText_readSchema.reads hw hbody p rest]
    unfold ofText
    cases parse s <;> rfl
  only := by
    intro c c' t h
    unfold readOptionalSchema at h
    split at h
    · obtain ⟨_, -, ht⟩ := map_eq_ok h
      cases ht
    · obtain ⟨_, hread, ht⟩ := map_eq_ok h
      cases ht
      exact readsText_readSchema.only hread

theorem takes_readOptionalSchema_null {w : List UInt8} (hw : Blanks w) :
    Takes readOptionalSchema (w ++ 0x6E :: Json.Word.null) none := by
  intro p rest
  have hread : Takes (readNull .string) (w ++ 0x6E :: Json.Word.null) () :=
    (takes_readNull .string).of_blanks (skipsBlanks_readNull .string) hw rfl
  have hnull : atNull ⟨p, (w ++ 0x6E :: Json.Word.null) ++ rest⟩ = true := by
    rw [List.append_assoc]
    exact atNull_append p hw rfl
  rw [readOptionalSchema, if_pos hnull, hread p rest]
  rfl

/-! ## Whole texts -/

namespace ReadsText

variable {α : Type} {reader : Cursor → Outcome α} {wrap : Schema → α}

theorem readWhole_eq (h : ReadsText reader wrap) {s : String} {document : List UInt8}
    (hd : Written (.string (some s)) document) :
    readWhole reader document = ((parse s).map wrap).mapError schemaError := by
  obtain ⟨before, text, after, rfl, hbefore, hafter, htext⟩ := hd
  cases htext with
  | @string body _ hbody =>
      have hread := h.reads hbefore hbody .start after
      rw [List.append_assoc] at hread
      cases hparse : parse s with
      | ok t =>
          rw [ofText, hparse] at hread
          exact readWhole_eq_ok_iff.mpr ⟨_, hread, hafter⟩
      | error e =>
          rw [ofText, hparse] at hread
          rw [readWhole, Cursor.ofBytes, hread]
          rfl

theorem written_of_readWhole (h : ReadsText reader wrap) {document : List UInt8} {t : Schema}
    (hread : readWhole reader document = .ok (wrap t)) :
    ∃ s, Written (.string (some s)) document ∧ parse s = .ok t := by
  obtain ⟨c, hread, hafter⟩ := readWhole_eq_ok_iff.mp hread
  obtain ⟨w, body, s, hw, hbody, hrest, hs⟩ := h.only hread
  exact ⟨s, ⟨w, Literal.quoted body, c.rest, hrest, hw, hafter, .string hbody⟩, hs⟩

theorem transparent (h : ReadsText reader wrap) {write : α → String}
    (hwrite : ∀ t, write (wrap t) = Embed.write t) :
    Transparent (readWhole reader) write wrap := by
  have hwrites : ∀ t, Text (.string (some t.canonical)) (Utf8.encode (write (wrap t))) := by
    intro t
    rw [hwrite]
    exact Json.Literal.text_encode t.canonical
  have hrereads : ∀ t, readWhole reader (Utf8.encode (write (wrap t))) =
      ((parse t.canonical).map wrap).mapError schemaError := by
    intro t
    refine h.readWhole_eq ⟨[], _, [], ?_, nofun, nofun, hwrites t⟩
    rw [List.nil_append, List.append_nil]
  refine ⟨fun s document hd => h.readWhole_eq hd, fun document t => h.written_of_readWhole,
    hwrites, hrereads, fun t source ht => ?_⟩
  rw [hrereads, parse_canonical_of_parse ht]
  rfl

end ReadsText

theorem readOptional_eq_none_iff {document : List UInt8} :
    readOptional document = .ok none ↔ Written .null document := by
  rw [readOptional, readWhole_eq_ok_iff]
  constructor
  · rintro ⟨c, hread, hafter⟩
    unfold readOptionalSchema at hread
    split at hread
    · obtain ⟨⟨⟩, hnull, -⟩ := map_eq_ok hread
      obtain ⟨w, hw, hrest⟩ := exists_null_of_readNull hnull
      exact ⟨w, _, c.rest, hrest, hw, hafter, .null⟩
    · obtain ⟨_, -, ht⟩ := map_eq_ok hread
      cases ht
  · rintro ⟨before, text, after, rfl, hbefore, hafter, htext⟩
    cases htext with
    | null =>
        have hread := takes_readOptionalSchema_null hbefore .start after
        rw [List.append_assoc] at hread
        exact ⟨_, hread, hafter⟩

/-- What is written for a schema is read as it, if its canonical text is parsed to it. -/
theorem ReadsText.takes {α : Type} {reader : Cursor → Outcome α} {wrap : Schema → α}
    (h : ReadsText reader wrap) {t : Schema} (ht : parse t.canonical = .ok t) :
    Takes reader (Utf8.encode (write t)) (wrap t) := by
  intro p rest
  have hread := h.reads (w := []) nofun (Json.Literal.denotes_encodeBody t.canonical) p rest
  rw [List.nil_append, ofText, ht] at hread
  rw [write, Json.Literal.encode_eq_quoted]
  exact hread

theorem not_text_null_write (t : Schema) : ¬Text .null (Utf8.encode (write t)) := by
  have hhead : ∀ {bytes}, Text .null bytes → bytes.head? = some 0x6E := by
    rintro _ ⟨⟩
    rfl
  intro h
  have htext := Json.Literal.text_encode t.canonical
  rw [write] at h
  generalize Utf8.encode (Json.Literal.encode t.canonical) = bytes at h htext
  cases htext with
  | string _ => exact absurd (Option.some.inj (hhead h)) (by decide)

theorem text_null_writeOptional_iff {o : Option Schema} :
    Text .null (Utf8.encode (writeOptional o)) ↔ o = none := by
  cases o with
  | none => exact ⟨fun _ => rfl, fun _ => .null⟩
  | some t => exact ⟨fun h => absurd h (not_text_null_write t), by simp⟩

/-- An embedded schema is the text in a string, however the string is written, and a schema
is written as its canonical text.  With the option it is the same, and null is the one text
of no schema. -/
theorem embedding_transparent :
    Transparent read write id ∧ Transparent readOptional writeOptional some ∧
    (∀ e, (schemaError e).problem.category = .data ∧ (schemaError e).message = e.message) ∧
    (∀ document, readOptional document = .ok none ↔ Written .null document) ∧
    ∀ o, Text .null (Utf8.encode (writeOptional o)) ↔ o = none :=
  ⟨readsText_readSchema.transparent fun _ => rfl,
    readsText_readOptionalSchema.transparent fun _ => rfl,
    fun _ => ⟨rfl, String.append_empty⟩, fun _ => readOptional_eq_none_iff,
    fun _ => text_null_writeOptional_iff⟩

theorem written_of_read {w bytes : List UInt8} {p : Json.Position} {s : String} {c : Cursor}
    (hw : Blanks w) (h : Json.Literal.read ⟨p, bytes⟩ = .ok (s, c)) (hc : Blanks c.rest) :
    Written (.string (some s)) (w ++ Json.Byte.quote :: bytes) := by
  obtain ⟨body, rfl, hbody⟩ := Json.Literal.denotes_of_read h
  refine ⟨w, Literal.quoted body, c.rest, ?_, hw, hc, .string hbody⟩
  rw [Literal.quoted, List.cons_append, List.append_assoc, List.singleton_append]

/-- An escape and the character that it stands for are the same to a reader, and so are a
surrogate pair and its character, although that is not the text of a schema. -/
theorem embedding_transparent_escapes :
    read (Utf8.encode " \"n\\u0075ll\"\n") = .ok (.ofKind .null) ∧
      readOptional (Utf8.encode "\"\\ud83d\\ude00\"") =
        .error (schemaError (.illegalCharacter '😀' ⟨0, 4⟩)) := by
  obtain ⟨hplain, hoptional, -⟩ := embedding_transparent
  constructor
  · have hread : Json.Literal.read (.ofBytes (Utf8.encode "n\\u0075ll\"\n")) =
        .ok ("null", ⟨⟨1, 10⟩, [0x0A]⟩) := by
      decide +kernel
    have hwritten : Written (.string (some "null")) (Utf8.encode " \"n\\u0075ll\"\n") :=
      written_of_read (w := [0x20]) (List.forall_mem_singleton.mpr rfl) hread
        (List.forall_mem_singleton.mpr rfl)
    rw [hplain.reads _ _ hwritten]
    decide +kernel
  · have hread : Json.Literal.read (.ofBytes (Utf8.encode "\\ud83d\\ude00\"")) =
        .ok ("😀", ⟨⟨1, 13⟩, []⟩) := by
      decide +kernel
    have hwritten : Written (.string (some "😀")) (Utf8.encode "\"\\ud83d\\ude00\"") :=
      written_of_read (w := []) nofun hread nofun
    rw [hoptional.reads _ _ hwritten]
    decide +kernel

end Embed

end Jstn
