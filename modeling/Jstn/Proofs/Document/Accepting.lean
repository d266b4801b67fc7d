import Jstn.Proofs.Document.RootEnd
import Jstn.Proofs.Document.Texts

/-!
# What a walk accepts

A walk accepts a document just if it is the text of a value that conforms: what a walk finds
or is stuck at in other values is no acceptance, and in UTF-8 of a schema that does not nest
too deep a value that conforms is passed (`Walk.run_written_iff`).
-/

namespace Jstn

open Json (Value)

/-- What a walk from the root makes of a document that is one value. -/
theorem Walk.run_written_iff {mode : Mode} {t : Schema} {v : Value} {document : List UInt8}
    (hd : Utf8.Valid document) (hl : t.levels ≤ maxOpen) (hm : refuses mode t = false)
    (hv : Json.Written v document) :
    run mode ⟨[], .value t⟩ .start document = .ok () ↔ Conforms mode t v := by
  have h := settles_written hv hm
  generalize run mode ⟨[], .value t⟩ .start document = result at h ⊢
  cases h with
  | passes h => exact iff_of_true rfl h.1
  | breaks h => exact iff_of_false nofun h.not_conforms
  | sticks h =>
      refine iff_of_false nofun fun hconforms => ?_
      cases h with
      | undecodable _ hn => exact hn hconforms
      | notUtf8 hn => exact hn hd
      | tooDeep hn hdeep =>
          have hle := enters_le_levels hn
          omega

/-- Validation is conformance: a document is accepted if it is blank and the root
optional, or if it is the text of one value that conforms. -/
theorem check_ok_iff_conforms {mode : Mode} {t : Schema} {document : List UInt8}
    (hd : Utf8.Valid document) (hl : t.levels ≤ 127) :
    check t document mode = .ok () ↔
      (Json.Blanks document ∧ t.optional = true) ∨
        ∃ v, Json.Written v document ∧ Conforms mode t v := by
  rw [check, ← isBlankDocument_iff]
  cases hblank : isBlankDocument document with
  | true =>
      have hnone : ¬∃ v, Json.Written v document ∧ Conforms mode t v := by
        rintro ⟨v, hv, -⟩
        rw [not_blank_of_written hv] at hblank
        cases hblank
      cases t.optional <;> simp [hnone]
  | false =>
      cases hm : Walk.refuses mode t with
      | true =>
          have hnone : ¬∃ v, Json.Written v document ∧ Conforms mode t v := by
            rintro ⟨v, -, hconf⟩
            exact Walk.not_conforms_of_refuses hm hconf
          simp [hnone]
      | false =>
          simp only [Bool.false_eq_true, if_false, false_and, false_or]
          constructor
          · intro h
            obtain ⟨v, hv⟩ := Walk.written_of_run h
            exact ⟨v, hv, (Walk.run_written_iff hd hl hm hv).mp h⟩
          · rintro ⟨v, hv, hconf⟩
            exact (Walk.run_written_iff hd hl hm hv).mpr hconf

/-- An accepted document that names a property twice. -/
theorem conforms_of_accepted_members :
    Utf8.Valid (Utf8.encode " \x7b \"a\" : [\"é\\n\", null], \"a\": [] \x7d") ∧
      (Schema.object [("a", Schema.array Schema.string.asOptional),
        ("b", Schema.number.asOptional)]).levels ≤ 127 ∧
      ∃ v, Json.Written v (Utf8.encode " \x7b \"a\" : [\"é\\n\", null], \"a\": [] \x7d") ∧
        Conforms .strict (Schema.object [("a", Schema.array Schema.string.asOptional),
          ("b", Schema.number.asOptional)]) v := by
  have hvalid :
      Utf8.Valid (Utf8.encode " \x7b \"a\" : [\"é\\n\", null], \"a\": [] \x7d") := ⟨_, rfl⟩
  refine ⟨hvalid, by decide, ?_⟩
  refine Or.resolve_left ((check_ok_iff_conforms hvalid ?_).mp ?_) ?_
  · decide
  · decide +kernel
  · rintro ⟨-, hoptional⟩
    cases hoptional

end Jstn
