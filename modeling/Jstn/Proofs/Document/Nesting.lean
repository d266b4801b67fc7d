import Jstn.Proofs.Document.Accepting

/-!
# Documents that nest deep

A walk follows 127 levels of containers.  It counts the containers that it enters, and it
enters none of a value that it skips, however deep that value nests.  So a document whose
containers nest deeper is rejected unless it conforms and everything that stands too deep is
inside a value that lenient mode skips (`rejected_or_ignored_of_nests`).

`Nests v n` says that `n` containers of a value stand one inside the other, `Enters t v n`
that a visit enters as many, and `Ignores t v n w` that it skips the value `w` inside `n` of
them.  In a value that conforms every chain of containers is entered as a whole, or it is
entered up to a value that is skipped (`enters_or_ignores`).
-/

namespace Jstn

open Json (Byte.openBracket Byte.closeBracket Item Text Value)

/-! ## Levels of a value -/

/-- `n` containers stand one inside the other, and the value is the outermost. -/
inductive Json.Value.Nests : Value → Nat → Prop
  | root {v : Value} : v.kind = .array ∨ v.kind = .object → Nests v 1
  | item {items : List Value} {v : Value} {n : Nat} :
      v ∈ items → Nests v n → Nests (.array items) (n + 1)
  | member {members : List (Option String × Value)} {key : Option String} {v : Value} {n : Nat} :
      (key, v) ∈ members → Nests v n → Nests (.object members) (n + 1)

/-- Visiting a value at a node enters `n` containers, one inside the other, and then leaves
a value unread, since any value may stand there. -/
inductive Ignores : Schema → Value → Nat → Value → Prop
  | any {t : Schema} {v : Value} : t.kind = .any → Ignores t v 0 v
  | undeclared {t : Schema} {members : List (Option String × Value)} {name : String} {v : Value} :
      t.kind = .object → t.property? name = none → (some name, v) ∈ members →
      Ignores t (.object members) 1 v
  | item {t node : Schema} {items : List Value} {v w : Value} {n : Nat} :
      t.kind = .array → t.items = some node → v ∈ items → Ignores node v n w →
      Ignores t (.array items) (n + 1) w
  | member {t node : Schema} {members : List (Option String × Value)} {name : String}
      {v w : Value} {n : Nat} :
      t.kind = .object → t.property? name = some node → (some name, v) ∈ members →
      Ignores node v n w → Ignores t (.object members) (n + 1) w

variable {mode : Mode} {t : Schema}

/-- A container conforms where any value may stand and to nodes of its kind. -/
theorem any_or_kind_of_conforms {v : Value} (hk : v.kind = .array ∨ v.kind = .object)
    (h : Conforms mode t v) : t.kind = .any ∨ t.kind = v.kind := by
  cases h with
  | any h _ => exact Or.inl h
  | scalar _ h => exact Or.inr h.symm
  | absent _ _ | null _ => rcases hk with hk | hk <;> cases hk
  | emptyArray h _ | array h _ _ | object h _ _ _ _ => exact Or.inr h

/-- In a value that conforms a chain of containers is entered, or it is entered up to a
value that is skipped. -/
theorem enters_or_ignores {v : Value} {n : Nat} (hv : Conforms mode t v) (hn : v.Nests n) :
    Enters t v n ∨ ∃ k w m, Ignores t v k w ∧ w.Nests m ∧ k + m = n := by
  induction hn generalizing t with
  | @root v hk =>
      rcases any_or_kind_of_conforms hk hv with ht | ht
      · exact Or.inr ⟨0, v, 1, .any ht, .root hk, rfl⟩
      · exact Or.inl (.root (by rwa [ht]) hk)
  | @item items v n hmem hn ih =>
      rcases any_or_kind_of_conforms (Or.inl rfl) hv with ht | ht
      · exact Or.inr ⟨0, _, n + 1, .any ht, .item hmem hn, Nat.zero_add _⟩
      · obtain ⟨node, hi, hitem⟩ := (conforms_array_iff ht).mp hv v hmem
        rcases ih hitem with h | ⟨k, w, m, h, hm, rfl⟩
        · exact Or.inl (.item ht hi hmem h)
        · exact Or.inr ⟨k + 1, w, m, .item ht hi hmem h, hm, Nat.succ_add k m⟩
  | @member members key v n hmem hn ih =>
      rcases any_or_kind_of_conforms (Or.inr rfl) hv with ht | ht
      · exact Or.inr ⟨0, _, n + 1, .any ht, .member hmem hn, Nat.zero_add _⟩
      · obtain ⟨hmembers, -⟩ := (conforms_object_iff ht).mp hv
        obtain ⟨name, node, rfl, hnode, hmember⟩ := hmembers _ hmem
        cases hp : t.property? name with
        | none => exact Or.inr ⟨1, v, n, .undeclared ht hp hmem, hn, Nat.add_comm 1 n⟩
        | some node' =>
            rw [declared?_of_some mode hp] at hnode
            cases hnode
            rcases ih hmember with h | ⟨k, w, m, h, hm, rfl⟩
            · exact Or.inl (.member ht hp hmem h)
            · exact Or.inr ⟨k + 1, w, m, .member ht hp hmem h, hm, Nat.succ_add k m⟩

/-- Strict mode skips nothing of a value that conforms. -/
theorem lenient_of_ignores {v w : Value} {n : Nat} (h : Ignores t v n w)
    (hv : Conforms mode t v) : mode = .lenient := by
  induction h with
  | any ht => exact (conforms_any_iff ht).mp hv
  | undeclared ht hp hmem =>
      obtain ⟨hmembers, -⟩ := (conforms_object_iff ht).mp hv
      cases hm : mode with
      | lenient => rfl
      | strict => exact absurd (hmembers _ hmem) (not_memberConforms_of_undeclared hm hp _)
  | item ht hi hmem _ ih =>
      obtain ⟨node, hnode, hitem⟩ := (conforms_array_iff ht).mp hv _ hmem
      rw [hi] at hnode
      cases hnode
      exact ih hitem
  | member ht hp hmem _ ih =>
      obtain ⟨hmembers, -⟩ := (conforms_object_iff ht).mp hv
      obtain ⟨name, node, hname, hnode, hmember⟩ := hmembers _ hmem
      cases hname
      rw [declared?_of_some mode hp] at hnode
      cases hnode
      exact ih hmember

/-- The containers around a value that is skipped are entered. -/
theorem enters_of_ignores {v w : Value} {n : Nat} (h : Ignores t v n w) :
    n = 0 ∨ Enters t v n := by
  induction h with
  | any _ => exact Or.inl rfl
  | undeclared ht _ _ => exact Or.inr (.root (Or.inr ht) (Or.inr rfl))
  | item ht hi hmem _ ih =>
      rcases ih with rfl | h
      · exact Or.inr (.root (Or.inl ht) (Or.inl rfl))
      · exact Or.inr (.item ht hi hmem h)
  | member ht hp hmem _ ih =>
      rcases ih with rfl | h
      · exact Or.inr (.root (Or.inr ht) (Or.inr rfl))
      · exact Or.inr (.member ht hp hmem h)

/-! ## Arrays inside one another -/

/-- An empty array inside `n` others. -/
def nestedArrays : Nat → Value
  | 0 => .array []
  | n + 1 => .array [nestedArrays n]

/-- The text of nested arrays, without blanks. -/
def nestedArraysText : Nat → List UInt8
  | 0 => [Byte.openBracket, Byte.closeBracket]
  | n + 1 => Byte.openBracket :: (nestedArraysText n ++ [Byte.closeBracket])

/-- The schema of nested arrays. -/
def arraySchema : Nat → Schema
  | 0 => { kind := .array }
  | n + 1 => Schema.array (arraySchema n)

theorem text_nestedArrays (n : Nat) : Text (nestedArrays n) (nestedArraysText n) := by
  induction n with
  | zero => exact .emptyArray (List.forall_mem_nil _)
  | succ n ih =>
      let item : Item := ⟨[], nestedArrays n, nestedArraysText n, []⟩
      have hblanks : ∀ i ∈ [item], Json.Blanks i.before ∧ Json.Blanks i.after :=
        List.forall_mem_singleton.mpr ⟨List.forall_mem_nil _, List.forall_mem_nil _⟩
      have h := Text.array hblanks (List.forall_mem_singleton.mpr ih)
      simpa [item, nestedArrays, nestedArraysText, Item.bytes, Json.moreItems] using h

theorem written_nestedArrays (n : Nat) : Json.Written (nestedArrays n) (nestedArraysText n) :=
  ⟨[], nestedArraysText n, [], by simp, List.forall_mem_nil _, List.forall_mem_nil _,
    text_nestedArrays n⟩

theorem nests_nestedArrays (n : Nat) : (nestedArrays n).Nests (n + 1) := by
  induction n with
  | zero => exact .root (Or.inl rfl)
  | succ n ih => exact .item List.mem_cons_self ih

theorem valid_nestedArraysText (n : Nat) : Utf8.Valid (nestedArraysText n) := by
  have hascii : Byte.openBracket.toNat < 0x80 ∧ Byte.closeBracket.toNat < 0x80 := by decide
  induction n with
  | zero => exact ⟨"[]", rfl⟩
  | succ n ih =>
      rw [nestedArraysText, Utf8.valid_cons_ascii hascii.1, Utf8.valid_append_ascii hascii.2]
      exact ⟨ih, Utf8.valid_nil⟩

/-- Arrays are accepted where any value may stand, however deep they nest. -/
theorem check_any_nestedArrays (n : Nat) :
    check .any (nestedArraysText n) .lenient = .ok () := by
  have hwritten := written_nestedArrays n
  have hlevels : Schema.any.levels ≤ Walk.maxOpen := by decide
  rw [check, not_blank_of_written hwritten]
  exact (Walk.run_written_iff (valid_nestedArraysText n) hlevels rfl hwritten).mpr (.any rfl rfl)

/-! ## Deep documents -/

/-- What is accepted conforms, and no more than 127 of its containers are entered. -/
theorem fits_of_accepted {v : Value} {document : List UInt8} (hv : Json.Written v document)
    (h : check t document mode = .ok ()) : Walk.Fits mode 0 t v := by
  rw [check, not_blank_of_written hv] at h
  simp only [Bool.false_eq_true, if_false] at h
  split at h
  next => cases h
  next hm =>
    have houtcome := Walk.settles_written hv (Bool.not_eq_true _ ▸ hm)
    rw [h] at houtcome
    cases houtcome with
    | passes hfits => exact hfits

/-- A document that nests deeper than 127 levels is rejected, unless it does so in a value
that lenient mode skips.  That value may nest as deep as it likes, but no chain of more than
127 containers is entered. -/
theorem rejected_or_ignored_of_nests {v : Value} {document : List UInt8} {n : Nat}
    (hv : Json.Written v document) (hn : v.Nests n) (hdeep : 127 < n) :
    (∃ rejection, check t document mode = .error rejection) ∨
      mode = .lenient ∧ (∀ k, Enters t v k → k ≤ 127) ∧
        ∃ k w m, k ≤ 127 ∧ Ignores t v k w ∧ w.Nests m ∧ k + m = n := by
  cases h : check t document mode with
  | error rejection => exact Or.inl ⟨rejection, rfl⟩
  | ok _ =>
      obtain ⟨hconforms, hshallow⟩ := fits_of_accepted hv h
      have hbound : ∀ k, Enters t v k → k ≤ 127 := by
        intro k hk
        have hle := hshallow k hk
        simp only [Walk.maxOpen] at hle
        omega
      rcases enters_or_ignores hconforms hn with hentered | ⟨k, w, m, hignored, hm, rfl⟩
      · exact absurd (hbound n hentered) (Nat.not_le_of_lt hdeep)
      · have hk : k ≤ 127 := by
          rcases enters_of_ignores hignored with rfl | hentered
          · exact Nat.zero_le 127
          · exact hbound k hentered
        exact Or.inr
          ⟨lenient_of_ignores hignored hconforms, hbound, k, w, m, hk, hignored, hm, rfl⟩

/-- A hundred and twenty-nine arrays are one level too deep for their own schema. -/
theorem rejected_nestedArrays :
    Json.Written (nestedArrays 128) (nestedArraysText 128) ∧ (nestedArrays 128).Nests 129 ∧
      ∃ rejection,
        check (arraySchema 128) (nestedArraysText 128) .strict = .error rejection := by
  have hwritten := written_nestedArrays 128
  have hnests := nests_nestedArrays 128
  refine ⟨hwritten, hnests, ?_⟩
  rcases rejected_or_ignored_of_nests hwritten hnests (by decide) with h | ⟨hmode, -⟩
  · exact h
  · cases hmode

/-- The same arrays are accepted where any value may stand. -/
theorem accepted_nestedArrays :
    Json.Written (nestedArrays 128) (nestedArraysText 128) ∧ (nestedArrays 128).Nests 129 ∧
      check .any (nestedArraysText 128) .lenient = .ok () :=
  ⟨written_nestedArrays 128, nests_nestedArrays 128, check_any_nestedArrays 128⟩

end Jstn
