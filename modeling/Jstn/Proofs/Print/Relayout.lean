import Jstn.Proofs.Print

/-!
# The two formats are one text laid out twice

Pretty text becomes canonical text if its blanks are deleted and its line breaks are
joined: a line break after `{` or before `}` is deleted, and every other one is a `;`
(`oneLine_pretty`).  The names of properties have to be words for that, since a name is
written as it is and might have blanks, line breaks or brackets in it.

Joining lines looks at the characters on both sides of a line break, and the text of a tree
stands inside others.  So the induction over trees says what becomes of the text of a tree
before any other (`Relays`).  Nothing matters of what stands before it but whether it is `{`,
and nothing of the depth, which is seen in the indentation only.
-/

namespace Jstn

/-! ## Joining lines -/

/-- Deletes the line breaks right after `{` and right before `}`.  `braced` tells whether a `{`
stands right before the characters. -/
def dropBreaks (braced : Bool) : List Char → List Char
  | [] => []
  | c :: cs =>
      if c = '\n' ∧ (braced = true ∨ cs.head? = some '}') then dropBreaks false cs
      else c :: dropBreaks (c = '{') cs

/-- Puts a `;` for every line break that is not deleted. -/
def joinLines (braced : Bool) (cs : List Char) : List Char :=
  (dropBreaks braced cs).map fun c => if c = '\n' then ';' else c

/-- Deletes the spaces. -/
def dropSpaces (cs : List Char) : List Char := cs.filter fun c => c ≠ ' '

/-- The text without spaces on one line. -/
def oneLine (text : String) : String := String.ofList (joinLines false (dropSpaces text.toList))

example : oneLine "\x7b\n  a: \x7b\x7d?\n  b: [\x7b\n    c: any\n  \x7d]\n\x7d"
    = "\x7ba:\x7b\x7d?;b:[\x7bc:any\x7d]\x7d" := by
  decide

theorem dropSpaces_append (xs ys : List Char) :
    dropSpaces (xs ++ ys) = dropSpaces xs ++ dropSpaces ys := List.filter_append ..

theorem dropSpaces_cons {c : Char} (h : c ≠ ' ') (cs : List Char) :
    dropSpaces (c :: cs) = c :: dropSpaces cs := List.filter_cons_of_pos (decide_eq_true h)

theorem dropSpaces_indentation (depth : Nat) : dropSpaces (indentation depth) = [] := by
  refine List.filter_eq_nil_iff.mpr fun c hc => ?_
  rw [List.eq_of_mem_replicate hc]
  decide

/-- Joining the lines of `xs` before `rest` gives `ys`, and `joined` tells whether a `{` stands
right before `rest`. -/
def Joins (braced : Bool) (xs rest ys : List Char) (braced' : Bool) : Prop :=
  joinLines braced (dropSpaces xs ++ rest) = ys ++ joinLines braced' rest

variable {braced braced₁ braced' : Bool} {xs xs' ys ys' rest : List Char}

theorem Joins.trans (h : Joins braced xs (dropSpaces xs' ++ rest) ys braced₁)
    (h' : Joins braced₁ xs' rest ys' braced') :
    Joins braced (xs ++ xs') rest (ys ++ ys') braced' := by
  rw [Joins] at h h' ⊢
  rw [dropSpaces_append, List.append_assoc, h, h', List.append_assoc]

theorem joins_nil : Joins braced [] rest [] braced := rfl

/-- A character that is neither a space nor a line break stays. -/
theorem joins_char {c : Char} (hspace : c ≠ ' ') (hbreak : c ≠ '\n') :
    Joins braced [c] rest [c] (c = '{') := by
  rw [Joins, dropSpaces_cons hspace, List.cons_append, joinLines, dropBreaks,
    if_neg fun h => hbreak h.1, List.map_cons, if_neg hbreak]
  rfl

theorem joins_indentation (depth : Nat) : Joins braced (indentation depth) rest [] braced := by
  rw [Joins, dropSpaces_indentation]
  rfl

theorem joins_dropped (h : braced = true ∨ rest.head? = some '}') :
    Joins braced ['\n'] rest [] false := by
  have hdrop : dropSpaces ['\n'] = ['\n'] := rfl
  rw [Joins, hdrop, List.singleton_append, joinLines, dropBreaks, if_pos ⟨rfl, h⟩, joinLines,
    List.nil_append]

theorem joins_break (h : rest.head? ≠ some '}') : Joins false ['\n'] rest [';'] false := by
  have hdrop : dropSpaces ['\n'] = ['\n'] := rfl
  have hkept : ¬('\n' = '\n' ∧ (false = true ∨ rest.head? = some '}')) := by simp [h]
  rw [Joins, hdrop, List.singleton_append, joinLines, dropBreaks, if_neg hkept, List.map_cons]
  rfl

/-- A character that neither layout nor braces are made of. -/
def IsInline (c : Char) : Prop := c ≠ ' ' ∧ c ≠ '\n' ∧ c ≠ '{' ∧ c ≠ '}'

/-- Such characters stay as they are. -/
theorem joins_inline (hne : xs ≠ []) (h : ∀ c ∈ xs, IsInline c) :
    Joins braced xs rest xs false := by
  induction xs generalizing braced with
  | nil => exact absurd rfl hne
  | cons c xs ih =>
      obtain ⟨⟨hspace, hbreak, hbrace, -⟩, hxs⟩ := List.forall_mem_cons.mp h
      have hc : Joins braced [c] (dropSpaces xs ++ rest) [c] false := by
        rw [← decide_eq_false hbrace]
        exact joins_char hspace hbreak
      by_cases hnil : xs = []
      · subst hnil
        exact hc
      · exact hc.trans (ih hnil hxs)

/-! ## Trees whose names are words -/

namespace Schema

/-- A letter, and then letters, digits and underscores.  It may be a keyword. -/
def IsWord (name : String) : Prop :=
  ∃ c cs, name.toList = c :: cs ∧ isWordStart c = true ∧ ∀ d ∈ cs, isWordPart d = true

/-- The properties that are written have words for names. -/
inductive Worded : Schema → Prop
  | node {kind : Kind} {optional : Bool} {properties : List (String × Schema)}
      {items : Option Schema} :
      (kind = .object → ∀ p ∈ properties, IsWord p.1) →
      (kind = .object → ∀ p ∈ properties, Worded p.2) →
      (kind = .array → ∀ t, items = some t → Worded t) →
      Worded ⟨kind, optional, properties, items⟩

theorem inline_of_isWordPart (h : isWordPart c = true) : IsInline c := by
  refine ⟨?_, ?_, ?_, ?_⟩ <;>
    · rintro rfl
      exact absurd h (by decide)

theorem IsWord.inline {name : String} (h : IsWord name) :
    name.toList ≠ [] ∧ ∀ c ∈ name.toList, IsInline c := by
  obtain ⟨c, cs, hchars, hc, hcs⟩ := h
  rw [hchars]
  have hstart : isWordPart c = true := by
    rw [isWordStart] at hc
    simp [isWordPart, Char.isAlphanum, hc]
  exact ⟨List.cons_ne_nil c cs, List.forall_mem_cons.mpr
    ⟨inline_of_isWordPart hstart, fun d hd => inline_of_isWordPart (hcs d hd)⟩⟩

theorem isWord_name (kind : Kind) : IsWord kind.name := by
  cases kind <;> exact ⟨_, _, rfl, rfl, List.all_eq_true.mp rfl⟩

/-! ## The text of a tree -/

/-- The pretty text of the tree is joined to its canonical text, whatever stands around it. -/
def Relays (t : Schema) : Prop :=
  ∀ (depth depth' : Nat) (braced : Bool) (rest : List Char),
    Joins braced (t.chars .pretty depth) rest (t.chars .canonical depth') false

theorem joins_mark (optional : Bool) :
    Joins false (if optional then ['?'] else []) rest (if optional then ['?'] else []) false := by
  cases optional with
  | false => exact joins_nil
  | true => exact joins_char (by decide) (by decide)

theorem relays_keyword {kind : Kind} (optional : Bool) (properties : List (String × Schema))
    (items : Option Schema) (ha : kind ≠ .array) (ho : kind ≠ .object) :
    Relays ⟨kind, optional, properties, items⟩ := by
  intro depth depth' braced rest
  have hchars : ∀ format depth, chars format depth ⟨kind, optional, properties, items⟩
      = kind.name.toList ++ if optional then ['?'] else [] := by
    intro format depth
    cases kind with
    | array => exact absurd rfl ha
    | object => exact absurd rfl ho
    | string | number | boolean | null | any => rfl
  obtain ⟨hne, hinline⟩ := (isWord_name kind).inline
  rw [hchars, hchars]
  exact (joins_inline hne hinline).trans (joins_mark optional)

theorem relays_array (optional : Bool) (properties : List (String × Schema))
    {items : Option Schema} (hitems : ∀ t, items = some t → Relays t) :
    Relays ⟨.array, optional, properties, items⟩ := by
  intro depth depth' braced rest
  have hchars : ∀ format depth, chars format depth ⟨.array, optional, properties, items⟩
      = ['['] ++ (itemChars format depth items ++ ([']'] ++ if optional then ['?'] else [])) :=
    fun format depth => rfl
  have hopen : ∀ rest, Joins braced ['['] rest ['['] false :=
    fun rest => joins_char (by decide) (by decide)
  have hclose : ∀ rest, Joins false [']'] rest [']'] false :=
    fun rest => joins_char (by decide) (by decide)
  have hinner : ∀ rest, Joins false (itemChars .pretty depth items) rest
      (itemChars .canonical depth' items) false := by
    intro rest
    cases items with
    | none => exact joins_nil
    | some t => exact hitems t rfl depth depth' false rest
  rw [hchars, hchars]
  exact (hopen _).trans ((hinner _).trans ((hclose _).trans (joins_mark optional)))

/-- A property up to its end. -/
theorem joins_property {name : String} {t : Schema} (hname : IsWord name) (ht : Relays t)
    (depth depth' : Nat) :
    Joins braced (name.toList ++ ':' :: ([' '] ++ t.chars .pretty depth)) rest
      (name.toList ++ ':' :: ([] ++ t.chars .canonical depth')) false := by
  obtain ⟨hne, hinline⟩ := hname.inline
  have hcolon : ∀ rest, Joins false [':'] rest [':'] false :=
    fun rest => joins_char (by decide) (by decide)
  have hspace : ∀ rest, Joins false [' '] rest [] false := fun rest => rfl
  exact (joins_inline hne hinline).trans ((hcolon _).trans
    ((hspace _).trans (ht depth depth' false rest)))

/-- A line begins with a name, and no name with a brace. -/
theorem head_lineText {depth : Nat} {p : String × Schema} {ps : List (String × Schema)}
    (hname : IsWord p.1) (xs : List Char) :
    (dropSpaces (Parse.lineText depth (p :: ps) ++ xs) ++ rest).head? ≠ some '}' := by
  obtain ⟨hne, hinline⟩ := hname.inline
  obtain ⟨c, cs, hchars⟩ := List.exists_cons_of_ne_nil hne
  rw [hchars] at hinline
  obtain ⟨⟨hspace, -, -, hbrace⟩, -⟩ := List.forall_mem_cons.mp hinline
  rw [Parse.lineText_cons, List.append_assoc, dropSpaces_append, dropSpaces_indentation, hchars,
    List.nil_append, List.append_assoc, List.append_assoc, List.cons_append,
    dropSpaces_cons hspace]
  exact fun h => hbrace (Option.some.inj h)

/-- The lines of properties and the closing bracket. -/
theorem joins_lines {ps : List (String × Schema)} {p : String × Schema} (depth depth' n : Nat)
    (hps : ∀ q ∈ p :: ps, IsWord q.1 ∧ Relays q.2) :
    Joins false (Parse.lineText depth (p :: ps) ++ (indentation n ++ ['}'])) rest
      (Parse.memberText depth' (p :: ps)) false := by
  induction ps generalizing p with
  | nil =>
      obtain ⟨hname, ht⟩ := hps p List.mem_cons_self
      have hbrace : (dropSpaces (indentation n ++ ['}']) ++ rest).head? = some '}' := by
        rw [dropSpaces_append, dropSpaces_indentation]
        rfl
      have hclose : Joins false (indentation n ++ ['}']) rest ([] ++ ['}']) false :=
        (joins_indentation n).trans (joins_char (by decide) (by decide))
      rw [Parse.lineText_cons, Parse.memberText_singleton, List.append_assoc, List.append_assoc]
      exact (joins_indentation depth).trans ((joins_property hname ht depth depth').trans
        ((joins_dropped (Or.inr hbrace)).trans hclose))
  | cons p' ps ih =>
      obtain ⟨⟨hname, ht⟩, hps⟩ := List.forall_mem_cons.mp hps
      have hnext := (hps p' List.mem_cons_self).1
      rw [Parse.lineText_cons, Parse.memberText_cons, List.append_assoc, List.append_assoc]
      exact (joins_indentation depth).trans ((joins_property hname ht depth depth').trans
        ((joins_break (head_lineText hnext _)).trans (ih hps)))

theorem relays_object (optional : Bool) {properties : List (String × Schema)}
    (items : Option Schema) (hps : ∀ p ∈ properties, IsWord p.1 ∧ Relays p.2) :
    Relays ⟨.object, optional, properties, items⟩ := by
  intro depth depth' braced rest
  have hopen : ∀ rest, Joins braced ['{'] rest ['{'] true :=
    fun rest => joins_char (by decide) (by decide)
  cases properties with
  | nil =>
      have hclose : ∀ rest, Joins true ['}'] rest ['}'] false :=
        fun rest => joins_char (by decide) (by decide)
      exact (hopen _).trans ((hclose _).trans (joins_mark optional))
  | cons p ps =>
      have hpretty : chars .pretty depth ⟨.object, optional, p :: ps, items⟩ =
          ['{'] ++ (['\n'] ++ ((Parse.lineText (depth + 1) (p :: ps) ++
            (indentation depth ++ ['}'])) ++ if optional then ['?'] else [])) := rfl
      have hcanonical : chars .canonical depth' ⟨.object, optional, p :: ps, items⟩ =
          ['{'] ++ ([] ++ (Parse.memberText (depth' + 1) (p :: ps) ++
            if optional then ['?'] else [])) := rfl
      rw [hpretty, hcanonical]
      exact (hopen _).trans ((joins_dropped (Or.inl rfl)).trans
        ((joins_lines (depth + 1) (depth' + 1) depth hps).trans (joins_mark optional)))

theorem relays_of_worded {t : Schema} (h : Worded t) : Relays t := by
  induction t with
  | node kind optional properties items ihproperties ihitems =>
      cases h with
      | node hwords hworded hitems =>
          cases kind with
          | array =>
              exact relays_array optional properties fun t ht => ihitems t ht (hitems rfl t ht)
          | object =>
              exact relays_object optional items fun p hp =>
                ⟨hwords rfl p hp, ihproperties p hp (hworded rfl p hp)⟩
          | string | number | boolean | null | any =>
              exact relays_keyword optional properties items nofun nofun

end Schema

open Schema (Worded)

/-- Pretty text is canonical text laid out on lines. -/
theorem oneLine_pretty {t : Schema} (h : t.Worded) : oneLine t.pretty = t.canonical := by
  have hrelays := Schema.relays_of_worded h 0 0 false []
  rw [Joins, List.append_nil] at hrelays
  rw [oneLine, Schema.pretty, Schema.render, String.toList_ofList, hrelays]
  exact congrArg String.ofList (List.append_nil _)

/-- An array of objects, an empty object and the name of a kind as the name of a property. -/
def wordedTree : Schema :=
  { kind := .object
    properties :=
      [("any", .array { kind := .object, properties := [("b_1", .object []), ("c", .null)] }),
        ("d", (Schema.object []).asOptional)] }

theorem oneLine_pretty_wordedTree :
    (wordedTree.Worded ∧
      wordedTree.canonical = "\x7bany:[\x7bb_1:\x7b\x7d;c:null\x7d];d:\x7b\x7d?\x7d") ∧
      oneLine wordedTree.pretty = wordedTree.canonical := by
  have hitem : Worded { kind := .object, properties := [("b_1", .object []), ("c", .null)] } := by
    refine .node (fun _ => ?_) (fun _ => ?_) nofun
    · exact List.forall_mem_cons.mpr
        ⟨⟨'b', ['_', '1'], rfl, rfl, List.all_eq_true.mp rfl⟩,
          List.forall_mem_singleton.mpr ⟨'c', [], rfl, rfl, nofun⟩⟩
    · exact List.forall_mem_cons.mpr ⟨.node nofun nofun nofun,
        List.forall_mem_singleton.mpr (.node nofun nofun nofun)⟩
  have hworded : wordedTree.Worded := by
    refine .node (fun _ => ?_) (fun _ => ?_) nofun
    · exact List.forall_mem_cons.mpr
        ⟨⟨'a', ['n', 'y'], rfl, rfl, List.all_eq_true.mp rfl⟩,
          List.forall_mem_singleton.mpr ⟨'d', [], rfl, rfl, nofun⟩⟩
    · refine List.forall_mem_cons.mpr ⟨.node nofun nofun fun _ t ht => ?_,
        List.forall_mem_singleton.mpr (.node nofun nofun nofun)⟩
      cases ht
      exact hitem
  exact ⟨⟨hworded, by decide⟩, oneLine_pretty hworded⟩

end Jstn
