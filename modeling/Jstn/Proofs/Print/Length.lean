import Jstn.Proofs.Lexeme.Tiling
import Jstn.Proofs.Parse.WellFormed

/-!
# Canonical text is shortest

No text of a tree is shorter than its canonical text (`canonical_shortest`).

A derivation pays for what is written.  Every part of the canonical text is charged to
lexemes of the source: a bracket, a mark and a name to the same lexeme there, and a keyword
to the word that spells it, in whatever case (`Parse.width_le_of_derives`).  A `;` between
two properties is charged to the end of the first, which is a `;` or a line break.  The last
property has no `;` in canonical text, so it does not matter that it may do without an end.
What is left over are blanks, further line breaks, and the properties of which a later one
has the same name.
-/

namespace Jstn

/-! ## Widths -/

/-- The number of bytes of a lexeme. -/
def Lexeme.width (l : Lexeme) : Nat := utf8Length l.text.toList

namespace Parse

/-- The number of bytes of lexemes. -/
def width : List Lexeme → Nat
  | [] => 0
  | l :: x => l.width + width x

theorem width_cons (l : Lexeme) (x : List Lexeme) : width (l :: x) = l.width + width x := rfl

theorem width_append (x y : List Lexeme) : width (x ++ y) = width x + width y := by
  induction x with
  | nil => exact (Nat.zero_add _).symm
  | cons l x ih => rw [List.cons_append, width_cons, ih, width_cons, Nat.add_assoc]

/-- Blanks have their bytes too. -/
theorem width_significant_le (x : List Lexeme) : width (significant x) ≤ width x := by
  induction x with
  | nil => exact Nat.le_refl 0
  | cons l x ih =>
      rw [significant, List.filter_cons]
      split
      · exact Nat.add_le_add_left ih _
      · exact Nat.le_trans ih (Nat.le_add_left ..)

/-- The lexemes of a source have its bytes. -/
theorem width_tokenize (source : String) : width (tokenize source) = source.utf8ByteSize := by
  have htexts := (tiles_lexemes source.toList 0).texts
  have hwidth : ∀ x : List Lexeme, utf8Length (x.flatMap fun l => l.text.toList) = width x := by
    intro x
    induction x with
    | nil => rfl
    | cons l x ih => rw [List.flatMap_cons, utf8Length_append, ih, width_cons, Lexeme.width]
  have hsource : source.utf8ByteSize = utf8Length source.toList := by
    rw [← utf8ByteSize_ofList, String.ofList_toList]
  rw [hsource, ← htexts, hwidth]
  rfl

end Parse

/-! ## Lexemes -/

theorem length_le_utf8Length (cs : List Char) : cs.length ≤ utf8Length cs := by
  induction cs with
  | nil => exact Nat.le_refl 0
  | cons c cs ih =>
      have hpos := Char.utf8Size_pos c
      rw [List.length_cons, utf8Length_cons]
      omega

namespace Lexeme

variable {l : Lexeme}

theorem Proper.width_pos (h : l.Proper) : 0 < l.width := by
  obtain ⟨c, more, htext, -, -⟩ := h.exists_run
  rw [width, htext]
  exact Nat.add_pos_left (Char.utf8Size_pos c) _

/-- The word for a kind is as wide as its name, in whatever case. -/
theorem Proper.name_le_width {token : Token} {kind : Kind} (h : l.Proper)
    (hl : Parse.Is token l) (hk : token.kind? = some kind) :
    utf8Length kind.name.toList ≤ l.width := by
  cases h with
  | @keyword token' kind' keyword text span hkind hkeyword hspells =>
      obtain rfl : token' = token := Option.some.inj hl
      obtain rfl : kind' = kind := Option.some.inj (hkind.symm.trans hk)
      have hname : utf8Length kind'.name.toList = text.toList.length := by
        rw [← List.length_map (f := Char.toLower), hspells]
        cases kind' <;> cases hkeyword <;> rfl
      rw [hname]
      exact length_le_utf8Length text.toList
  | whitespace _ _ | newline _ _ | identifier _ =>
      cases hl
      cases hk
  | @punctuation token' c span hmark =>
      obtain rfl : token' = token := Option.some.inj hl
      unfold Token.ofPunctuation? at hmark
      split at hmark <;> cases hmark <;> cases hk
  | illegal _ _ _ _ => cases hl

end Lexeme

/-! ## Canonical text -/

namespace Schema

/-- The number of bytes of a type in canonical text. -/
def width (depth : Nat) (t : Schema) : Nat := utf8Length (t.chars .canonical depth)

/-- The number of bytes of a property in canonical text, without an end. -/
def propertyWidth (depth : Nat) (name : String) (t : Schema) : Nat :=
  utf8Length name.toList + 1 + t.width depth

/-- The number of bytes of properties in canonical text, each with an end. -/
def propertiesWidth (depth : Nat) : List (String × Schema) → Nat
  | [] => 0
  | p :: ps => propertyWidth depth p.1 p.2 + 1 + propertiesWidth depth ps

variable {depth : Nat}

theorem propertiesWidth_cons (p : String × Schema) (ps : List (String × Schema)) :
    propertiesWidth depth (p :: ps)
      = propertyWidth depth p.1 p.2 + 1 + propertiesWidth depth ps := rfl

theorem propertiesWidth_append_singleton (ps : List (String × Schema)) (name : String)
    (t : Schema) :
    propertiesWidth depth (ps ++ [(name, t)])
      = propertiesWidth depth ps + (propertyWidth depth name t + 1) := by
  induction ps with
  | nil => exact Nat.add_comm ..
  | cons p ps ih =>
      rw [List.cons_append, propertiesWidth_cons, ih, propertiesWidth_cons, ← Nat.add_assoc (_ + 1)]

theorem propertiesWidth_insert_le (name : String) (t : Schema) (ps : List (String × Schema)) :
    propertiesWidth depth (NameMap.insert name t ps)
      ≤ propertiesWidth depth ps + (propertyWidth depth name t + 1) := by
  induction ps with
  | nil => exact Nat.le_of_eq (Nat.add_comm ..)
  | cons p ps ih =>
      rw [NameMap.insert]
      split
      · exact Nat.le_of_eq (Nat.add_comm ..)
      · split
        · simp only [propertiesWidth_cons]
          omega
        · simp only [propertiesWidth_cons]
          omega

/-- What is declared again is written once. -/
theorem propertiesWidth_ofPairs_le (ps : List (String × Schema)) :
    propertiesWidth depth (NameMap.ofPairs ps) ≤ propertiesWidth depth ps := by
  induction ps using List.reverseRecOn with
  | nil => exact Nat.le_refl 0
  | append_singleton ps p ih =>
      rw [NameMap.ofPairs_append, propertiesWidth_append_singleton]
      exact Nat.le_trans (propertiesWidth_insert_le p.1 p.2 _) (Nat.add_le_add_right ih _)

/-- The `;` between properties make up for all ends but the last, and the closing bracket
for that. -/
theorem utf8Length_memberText (p : String × Schema) (ps : List (String × Schema)) :
    utf8Length (Parse.memberText depth (p :: ps)) = propertiesWidth depth (p :: ps) := by
  have hproperty : ∀ p : String × Schema,
      utf8Length (p.1.toList ++ ':' :: ([] ++ p.2.chars .canonical depth))
        = propertyWidth depth p.1 p.2 := by
    intro p
    rw [utf8Length_append, utf8Length_cons, propertyWidth, Nat.add_assoc]
    rfl
  induction ps generalizing p with
  | nil =>
      rw [Parse.memberText_singleton, utf8Length_append, hproperty]
      rfl
  | cons p' ps ih =>
      rw [Parse.memberText_cons, utf8Length_append, hproperty, utf8Length_append, ih,
        propertiesWidth_cons p, Nat.add_assoc]
      rfl

/-- The mark of an optional type comes last. -/
theorem exists_chars_asOptional (format : Format) (depth : Nat) (t : Schema) :
    ∃ body, (t.chars format depth = body ++ if t.optional then ['?'] else []) ∧
      t.asOptional.chars format depth = body ++ ['?'] := by
  obtain ⟨kind, optional, properties, items⟩ := t
  cases kind with
  | array =>
      refine ⟨'[' :: (itemChars format depth items ++ [']']), ?_, ?_⟩
      · simp [chars]
      · simp [chars, asOptional]
  | object | string | number | boolean | null | any => exact ⟨_, rfl, rfl⟩

theorem width_asOptional_le (t : Schema) : t.asOptional.width depth ≤ t.width depth + 1 := by
  obtain ⟨body, hchars, hoptional⟩ := exists_chars_asOptional .canonical depth t
  rw [width, width, hchars, hoptional, utf8Length_append, utf8Length_append, Nat.add_right_comm]
  exact Nat.le_add_right ..

theorem width_ofKind {token : Token} {kind : Kind} (h : token.kind? = some kind) :
    (ofKind kind).width depth = utf8Length kind.name.toList := by
  cases token <;> cases h <;> rfl

theorem width_emptyArray : emptyArray.width depth = 2 := rfl

theorem width_array (t : Schema) : (array t).width depth = t.width depth + 2 := by
  have hchars : (array t).chars .canonical depth = '[' :: (t.chars .canonical depth ++ [']']) := rfl
  have hopen : '['.utf8Size = 1 := rfl
  have hclose : utf8Length [']'] = 1 := rfl
  rw [width, hchars, utf8Length_cons, utf8Length_append, hopen, hclose, width]
  omega

theorem width_object_le (ps : List (String × Schema)) :
    (object ps).width depth ≤ max 2 (propertiesWidth (depth + 1) ps + 1) := by
  have hle := @propertiesWidth_ofPairs_le (depth + 1) ps
  rw [object]
  generalize NameMap.ofPairs ps = m at hle ⊢
  cases m with
  | nil => exact Nat.le_max_left ..
  | cons p m =>
      have hchars : chars .canonical depth { kind := .object, properties := p :: m }
          = ('{' :: Parse.memberText (depth + 1) (p :: m)) ++ [] := rfl
      have hopen : '{'.utf8Size = 1 := rfl
      rw [width, hchars, List.append_nil, utf8Length_cons, utf8Length_memberText, hopen]
      omega

end Schema

/-! ## Derivations -/

namespace Parse

/-- The number of bytes of what a phrase stands for in canonical text. -/
def Phrase.width (depth : Nat) : Phrase → Nat
  | .type t => t.width depth
  | .declaration t => t.width depth
  | .property name t => Schema.propertyWidth depth name t
  | .properties ps => Schema.propertiesWidth depth ps

/-- Lexemes that are a phrase are no shorter than its canonical text. -/
theorem width_le_of_derives {phrase : Phrase} {x : List Lexeme} (h : Derives phrase x)
    (hx : ∀ l ∈ x, l.Proper) (depth : Nat) : phrase.width depth ≤ width x := by
  induction h generalizing depth with
  | required _ ih => exact ih hx depth
  | @optional t x mark _ _ ih =>
      rw [List.forall_mem_append, List.forall_mem_singleton] at hx
      have htype : t.width depth ≤ width x := ih hx.1 depth
      have hmark := hx.2.width_pos
      have hoptional := @Schema.width_asOptional_le depth t
      simp only [Phrase.width, width_append, width_cons]
      omega
  | @keyword w word token kind _ hl hk =>
      rw [List.forall_mem_append, List.forall_mem_singleton] at hx
      have hword := hx.2.name_le_width hl hk
      simp only [Phrase.width, Schema.width_ofKind hk, width_append, width_cons]
      omega
  | @emptyArray w w' opening closing _ _ _ _ =>
      simp only [List.forall_mem_append, List.forall_mem_cons] at hx
      obtain ⟨-, hopening, -, hclosing, -⟩ := hx
      have hopen := hopening.width_pos
      have hclose := hclosing.width_pos
      simp only [Phrase.width, Schema.width_emptyArray, width_append, width_cons]
      omega
  | @array w w' x opening closing t _ _ _ _ _ ih =>
      simp only [List.forall_mem_append, List.forall_mem_cons] at hx
      obtain ⟨-, hopening, hx, -, hclosing, -⟩ := hx
      have hopen := hopening.width_pos
      have hitems : t.width depth ≤ width x := ih hx depth
      have hclose := hclosing.width_pos
      simp only [Phrase.width, Schema.width_array, width_append, width_cons]
      omega
  | @object w w' x opening closing ps _ _ _ _ _ ih =>
      simp only [List.forall_mem_append, List.forall_mem_cons] at hx
      obtain ⟨-, hopening, hx, -, hclosing, -⟩ := hx
      have hopen := hopening.width_pos
      have hproperties : Schema.propertiesWidth (depth + 1) ps ≤ width x := ih hx (depth + 1)
      have hclose := hclosing.width_pos
      have hobject := @Schema.width_object_le depth ps
      simp only [Phrase.width, width_append, width_cons]
      omega
  | @objectUnended w x y opening closing ps name t _ _ _ _ _ ihx ihy =>
      simp only [List.forall_mem_append, List.forall_mem_cons] at hx
      obtain ⟨-, hopening, hx, hy, hclosing, -⟩ := hx
      have hopen := hopening.width_pos
      have hproperties : Schema.propertiesWidth (depth + 1) ps ≤ width x := ihx hx (depth + 1)
      have hlast : Schema.propertyWidth (depth + 1) name t ≤ width y := ihy hy (depth + 1)
      have hclose := hclosing.width_pos
      have hobject := @Schema.width_object_le depth (ps ++ [(name, t)])
      rw [Schema.propertiesWidth_append_singleton] at hobject
      simp only [Phrase.width, width_append, width_cons]
      omega
  | @property w w' x word colon t _ _ _ _ _ ih =>
      simp only [List.forall_mem_append, List.forall_mem_cons] at hx
      obtain ⟨-, -, -, hcolon, hx⟩ := hx
      have hmark := hcolon.width_pos
      have htype : t.width depth ≤ width x := ih hx depth
      simp only [Phrase.width, Schema.propertyWidth, width_append, width_cons, Lexeme.width]
        at hmark ⊢
      omega
  | noProperties => exact Nat.le_refl 0
  | @moreProperties x y mark ps name t _ _ _ ihx ihy =>
      simp only [List.forall_mem_append, List.forall_mem_cons] at hx
      obtain ⟨hx, hy, hmark, -⟩ := hx
      have hproperties : Schema.propertiesWidth depth ps ≤ width x := ihx hx depth
      have hproperty : Schema.propertyWidth depth name t ≤ width y := ihy hy depth
      have hend := hmark.width_pos
      simp only [Phrase.width, Schema.propertiesWidth_append_singleton, width_append, width_cons]
      omega

end Parse

/-- Canonical text is a shortest text of its tree. -/
theorem canonical_shortest {source : String} {t : Schema} (h : parse source = .ok t) :
    parse t.canonical = .ok t ∧ t.canonical.utf8ByteSize ≤ source.utf8ByteSize := by
  obtain ⟨w, x, w', hlexemes, -, hx, -⟩ := Parse.spells_of_ofLexemes h
  have hproper : ∀ l ∈ w ++ (x ++ w'), l.Proper := by
    rw [← hlexemes]
    exact fun l hl => (tiles_lexemes source.toList 0).proper l (List.mem_of_mem_filter hl)
  simp only [List.forall_mem_append] at hproper
  have htree : t.width 0 ≤ Parse.width x := Parse.width_le_of_derives hx hproper.2.1 0
  have hsignificant := Parse.width_significant_le (tokenize source)
  have hcanonical : t.canonical.utf8ByteSize = t.width 0 := utf8ByteSize_ofList _
  refine ⟨parse_canonical_of_parse h, ?_⟩
  rw [hlexemes, Parse.width_append, Parse.width_append, Parse.width_tokenize] at hsignificant
  omega

/-- A source with blanks, other cases, a property that is declared again and a last one
without an end. -/
theorem canonical_shortest_relaid :
    parse " \x7bb : String? ;\n\na:[ANY];b: \x7b\x7d\x7d\n" =
        .ok (.object [("a", .array .any), ("b", .object [])]) ∧
      (Schema.object [("a", .array .any), ("b", .object [])]).canonical.utf8ByteSize
        ≤ " \x7bb : String? ;\n\na:[ANY];b: \x7b\x7d\x7d\n".utf8ByteSize := by
  have h : parse " \x7bb : String? ;\n\na:[ANY];b: \x7b\x7d\x7d\n" =
      .ok (.object [("a", .array .any), ("b", .object [])]) := by
    decide +kernel
  exact ⟨h, (canonical_shortest h).2⟩

end Jstn
