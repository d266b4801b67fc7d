import Jstn.Proofs.Document.Accepting
import Jstn.Proofs.Json.Writing

/-!
# Verdicts and spellings

The verdict on a document is decided by the value that the document spells.  Layout and escapes
are no part of a value, so texts that differ in nothing else are texts of one value.  The order
of members is a part of it, and `Json.Value.Reordered` relates the values that differ in that.

Walks over two such documents may stop at different places and for different reasons, so they
are not followed side by side.  A walk over UTF-8 accepts a text just if its value fits the
schema (`check_ok_iff_fits`), and whether it fits does not depend on the order of members
(`Json.Value.Reordered.fits_iff`).
-/

namespace Jstn

open Json (Value)

/-- Values that differ in the order of members only, in objects at any level. -/
inductive Json.Value.Reordered : Value → Value → Prop
  | refl (v : Value) : Reordered v v
  | members {members members' : List (Option String × Value)} :
      members.Perm members' → Reordered (.object members) (.object members')
  | item {first more : List Value} {v v' : Value} :
      Reordered v v' → Reordered (.array (first ++ v :: more)) (.array (first ++ v' :: more))
  | member {first more : List (Option String × Value)} {key : Option String} {v v' : Value} :
      Reordered v v' →
      Reordered (.object (first ++ (key, v) :: more)) (.object (first ++ (key, v') :: more))
  | trans {u v w : Value} : Reordered u v → Reordered v w → Reordered u w

/-- Documents that differ in blanks around tokens, in the order of members and in how characters
are escaped, at most. -/
inductive Respelled : List UInt8 → List UInt8 → Prop
  | blank {document document' : List UInt8} :
      isBlankDocument document = true → isBlankDocument document' = true →
      Respelled document document'
  | written {document document' : List UInt8} {v v' : Value} :
      Json.Written v document → Json.Written v' document' → v.Reordered v' →
      Respelled document document'
  /-- Neither of them is the text of a value. -/
  | malformed {document document' : List UInt8} :
      isBlankDocument document = false → isBlankDocument document' = false →
      (∀ v, ¬Json.Written v document) → (∀ v, ¬Json.Written v document') →
      Respelled document document'

namespace Walk

variable {mode : Mode} {depth : Nat} {t : Schema}

/-! ## Values that fit -/

/-- A value fits where no container is described just if it conforms. -/
theorem fits_iff_conforms {v : Value} (ht : ¬(t.kind = .array ∨ t.kind = .object)) :
    Fits mode depth t v ↔ Conforms mode t v :=
  ⟨And.left, fun h => ⟨h, fun _ hn => absurd hn (not_enters ht)⟩⟩

theorem fits_array_iff {items : List Value} (ht : t.kind = .array) :
    Fits mode depth t (.array items) ↔
      depth < maxOpen ∧ ∀ v ∈ items, ItemFits mode depth t v := by
  refine ⟨fun h => ⟨h.2 1 (.root (Or.inl ht) (Or.inl rfl)), fun v hv => ?_⟩,
    fun ⟨hl, h⟩ => fits_array ht hl h⟩
  obtain ⟨node, hnode, hitem⟩ := (conforms_array_iff ht).mp h.1 v hv
  refine ⟨node, hnode, hitem, fun n hn => ?_⟩
  have := h.2 _ (.item ht hnode hv hn)
  omega

theorem fits_object_iff {members : List (Option String × Value)} (ht : t.kind = .object) :
    Fits mode depth t (.object members) ↔
      depth < maxOpen ∧ (∀ e ∈ members, MemberFits mode depth t.properties e) ∧
        ∀ q ∈ t.properties, q.2.optional = false → ∃ e ∈ members, e.1 = some q.1 := by
  constructor
  · intro h
    obtain ⟨hmembers, hrequired⟩ := (conforms_object_iff ht).mp h.1
    refine ⟨h.2 1 (.root (Or.inr ht) (Or.inr rfl)), fun e he => ?_, hrequired⟩
    obtain ⟨name, node, hname, hnode, hmember⟩ := hmembers e he
    refine ⟨name, node, hname, hnode, hmember, fun n hn => ?_⟩
    rcases declared?_cases hnode with hf | ⟨rfl, -⟩
    · have he' : (some name, e.2) ∈ members := hname ▸ he
      have := h.2 _ (.member ht hf he' hn)
      omega
    · exact absurd hn (not_enters (by decide))
  · rintro ⟨hl, hmembers, hrequired⟩
    exact fits_object ht hl hmembers hrequired

/-- Values of one kind fit alike, unless the node describes that kind. -/
theorem fits_iff_of_kind_eq {v v' : Value} (hk : v.kind = v'.kind)
    (h : t.kind = v.kind → (Fits mode depth t v ↔ Fits mode depth t v')) :
    Fits mode depth t v ↔ Fits mode depth t v' := by
  by_cases ht : t.kind = .array ∨ t.kind = .object
  · by_cases hv : t.kind = v.kind
    · exact h hv
    · exact iff_of_false (fun hf => hv (kind_of_conforms ht hf.1).symm)
        fun hf => hv (hk.trans (kind_of_conforms ht hf.1)).symm
  · rw [fits_iff_conforms ht, fits_iff_conforms ht]
    by_cases hany : t.kind = .any
    · rw [conforms_any_iff hany, conforms_any_iff hany]
    · obtain ⟨ha, ho⟩ := not_or.mp ht
      rw [conforms_unvisited_iff ha ho hany, conforms_unvisited_iff ha ho hany, hk]

end Walk

open Walk (Fits ItemFits MemberFits)

namespace Json.Value.Reordered

/-- The order of members does not matter to a node. -/
theorem fits_iff {v v' : Value} (h : v.Reordered v') (mode : Mode) (depth : Nat) (t : Schema) :
    Fits mode depth t v ↔ Fits mode depth t v' := by
  induction h generalizing depth t with
  | refl => exact Iff.rfl
  | members hperm =>
      refine Walk.fits_iff_of_kind_eq rfl fun ht => ?_
      simp only [Walk.fits_object_iff ht, hperm.mem_iff]
  | item _ ih =>
      refine Walk.fits_iff_of_kind_eq rfl fun ht => ?_
      simp only [Walk.fits_array_iff ht, ItemFits, List.forall_mem_append, List.forall_mem_cons, ih]
  | @member first more key v v' _ ih =>
      refine Walk.fits_iff_of_kind_eq rfl fun ht => ?_
      have hkeys : ∀ name, (∃ e ∈ first ++ (key, v) :: more, e.1 = some name) ↔
          ∃ e ∈ first ++ (key, v') :: more, e.1 = some name := by
        simp [or_and_right, exists_or]
      simp only [Walk.fits_object_iff ht, hkeys, MemberFits, List.forall_mem_append,
        List.forall_mem_cons, ih]
  | trans _ _ ih ih' => exact (ih depth t).trans (ih' depth t)

end Json.Value.Reordered

/-! ## Documents -/

/-- A character may be written by its code. -/
theorem Json.Literal.denotes_code {hex : List UInt8} {c : Char} (h : HexCode hex c.toNat) :
    Denotes (Byte.backslash :: Byte.letterU :: hex) (some (String.singleton c)) := by
  have hvalid : c.toNat < 0xD800 ∨ 0xDFFF < c.toNat ∧ c.toNat < 0x110000 := c.valid
  have hhigh : isHighSurrogate c.toNat = false := by
    simp only [isHighSurrogate, Bool.and_eq_false_iff, decide_eq_false_iff_not]
    omega
  have hlow : isLowSurrogate c.toNat = false := by
    simp only [isLowSurrogate, Bool.and_eq_false_iff, decide_eq_false_iff_not]
    omega
  have hspells := Spells.code h hhigh hlow .nil
  rw [List.append_nil, Char.ofNat_toNat] at hspells
  exact denotes_of_spells (by simpa [Utf8.encode] using hspells)

variable {mode : Mode} {t : Schema} {document document' : List UInt8}

/-- A document that is one value is accepted just if the value fits, at any depth. -/
theorem check_ok_iff_fits {v : Value} (hd : Utf8.Valid document)
    (hv : Json.Written v document) :
    check t document mode = .ok () ↔ Fits mode 0 t v := by
  rw [check, not_blank_of_written hv, if_neg Bool.false_ne_true]
  cases hm : Walk.refuses mode t with
  | true =>
      refine iff_of_false (fun hok => ?_) fun h => Walk.not_conforms_of_refuses hm h.1
      rw [if_pos rfl] at hok
      cases hok
  | false =>
      rw [if_neg Bool.false_ne_true]
      have h := Walk.settles_written hv hm
      generalize Walk.run mode ⟨[], .value t⟩ .start document = result at h ⊢
      cases h with
      | passes h => exact iff_of_true rfl h
      | breaks h =>
          refine iff_of_false (fun hok => ?_) fun hfits => h.not_conforms hfits.1
          cases hok
      | sticks h =>
          refine iff_of_false (fun hok => ?_) fun hfits => ?_
          · cases hok
          · cases h with
            | undecodable _ hn => exact hn hfits.1
            | notUtf8 hn => exact hn hd
            | tooDeep hn hdeep => exact absurd (hfits.2 _ hn) (Nat.not_le.mpr hdeep)

/-- A document that spells no value is not accepted. -/
theorem check_ne_ok_of_malformed (hblank : isBlankDocument document = false)
    (h : ∀ v, ¬Json.Written v document) : check t document mode ≠ .ok () := by
  intro hok
  rw [run_of_readsRoot_check hblank (hok ▸ .accepts)] at hok
  obtain ⟨v, hv⟩ := Walk.written_of_run hok
  exact h v hv

theorem accepts_eq_true_iff : accepts t document mode = true ↔ check t document mode = .ok () := by
  rw [accepts]
  cases check t document mode <;> simp

/-- Documents in UTF-8 that spell one value, up to the order of members, have one verdict. -/
theorem accepts_respelled (hd : Utf8.Valid document) (hd' : Utf8.Valid document')
    (h : Respelled document document') :
    accepts t document mode = accepts t document' mode := by
  rw [Bool.eq_iff_iff, accepts_eq_true_iff, accepts_eq_true_iff]
  cases h with
  | blank h h' => rw [check, check, if_pos h, if_pos h']
  | written hv hv' h =>
      rw [check_ok_iff_fits hd hv, check_ok_iff_fits hd' hv']
      exact h.fits_iff mode 0 t
  | malformed hblank hblank' h h' =>
      exact iff_of_false (check_ne_ok_of_malformed hblank h) (check_ne_ok_of_malformed hblank' h')

/-- A property that occurs twice, in either order, with an escape in one of its keys. -/
theorem accepts_respelled_members :
    let t := Schema.object [("a", Schema.string.asOptional)]
    let document := Utf8.encode "\x7b\"a\":null,\"a\":\"é\"\x7d"
    let document' := Utf8.encode " \x7b\"\\u0061\" : \"\\u00E9\",\"a\":null\x7d\n"
    Respelled document document' ∧ accepts t document .strict = true ∧
      accepts t document' .strict = true := by
  intro t document document'
  have hblanks : Json.Blanks [] := nofun
  have hspace : Json.Blanks [0x20] := List.forall_mem_singleton.mpr rfl
  have hbreak : Json.Blanks [0x0A] := List.forall_mem_singleton.mpr rfl
  have hkey := Json.Literal.denotes_encodeBody "a"
  have hkey' : Json.Literal.Denotes [0x5C, 0x75, 0x30, 0x30, 0x36, 0x31] (some "a") :=
    Json.Literal.denotes_code (c := 'a') (Json.Literal.code_of_hexSum? rfl rfl)
  have htext' : Json.Literal.Denotes [0x5C, 0x75, 0x30, 0x30, 0x45, 0x39] (some "é") :=
    Json.Literal.denotes_code (c := 'é') (Json.Literal.code_of_hexSum? rfl rfl)
  have hobject := @Json.Text.object
    ⟨[], some "a", _, [], ⟨[], .null, _, []⟩⟩
    [⟨[], some "a", _, [], ⟨[], .string (some "é"), _, []⟩⟩]
    (List.forall_mem_cons.mpr ⟨⟨hblanks, hblanks, hkey⟩,
      List.forall_mem_singleton.mpr ⟨hblanks, hblanks, hkey⟩⟩)
    (List.forall_mem_cons.mpr
      ⟨⟨hblanks, hblanks⟩, List.forall_mem_singleton.mpr ⟨hblanks, hblanks⟩⟩)
    (List.forall_mem_cons.mpr
      ⟨.null, List.forall_mem_singleton.mpr (.string (Json.Literal.denotes_encodeBody "é"))⟩)
  have hobject' := @Json.Text.object
    ⟨[], some "a", _, [0x20], ⟨[0x20], .string (some "é"), _, []⟩⟩
    [⟨[], some "a", _, [], ⟨[], .null, _, []⟩⟩]
    (List.forall_mem_cons.mpr ⟨⟨hblanks, hspace, hkey'⟩,
      List.forall_mem_singleton.mpr ⟨hblanks, hblanks, hkey⟩⟩)
    (List.forall_mem_cons.mpr
      ⟨⟨hspace, hblanks⟩, List.forall_mem_singleton.mpr ⟨hblanks, hblanks⟩⟩)
    (List.forall_mem_cons.mpr ⟨.string htext', List.forall_mem_singleton.mpr .null⟩)
  have hrespelled : Respelled document document' :=
    .written ⟨[], document, [], rfl, hblanks, hblanks, hobject⟩
      ⟨[0x20], _, [0x0A], rfl, hspace, hbreak, hobject'⟩ (.members (.swap _ _ _))
  have haccepted : accepts t document .strict = true := by decide +kernel
  exact ⟨hrespelled, haccepted,
    (accepts_respelled ⟨_, rfl⟩ ⟨_, rfl⟩ hrespelled).symm.trans haccepted⟩

end Jstn
