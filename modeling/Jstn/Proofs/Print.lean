import Jstn.Print
import Jstn.Proofs.Lexeme
import Jstn.Proofs.Parse.Derivation

/-!
# Reading back what is written

The text of a tree, in either format, is parsed to the tree itself without the parts that
are not used.

`Goes` says that reading some characters takes the parser from one state to another,
whatever the offset is at which they stand.  It says what follows the characters, because
that decides where their last lexeme ends.  A piece of text is read by reading its parts in
turn (`Goes.trans`), and `goes_lexeme` reads a single lexeme.

`ReadsBack` is what the induction over trees shows.  The text of a tree may stand wherever
a type is due, inside any frames that leave room for its levels, and before any text that
does not go on with a word.
-/

namespace Jstn

namespace Schema

/-! ## Trees that can be written -/

/-- A letter, and then letters, digits and underscores, that are not the keyword of a kind
in any case. -/
def IsName (name : String) : Prop :=
  ∃ c cs, name.toList = c :: cs ∧ isWordStart c = true ∧ (∀ d ∈ cs, isWordPart d = true) ∧
    ∀ (kind : Kind) (keyword : String), kind.keyword? = some keyword →
      name.toList.map Char.toLower ≠ keyword.toList

/-- The properties that matter have names. -/
inductive Named : Schema → Prop
  | node {kind : Kind} {optional : Bool} {properties : List (String × Schema)}
      {items : Option Schema} :
      (kind = .object → ∀ p ∈ properties, IsName p.1) →
      (kind = .object → ∀ p ∈ properties, Named p.2) →
      (kind = .array → ∀ t, items = some t → Named t) →
      Named ⟨kind, optional, properties, items⟩

/-- A tree whose text can be read. -/
structure Printable (t : Schema) : Prop where
  named : Named t
  levels_le : t.levels ≤ 128

/-- Blanks in front of a type are not part of it. -/
theorem exists_head_chars (format : Format) (depth : Nat) (t : Schema) :
    ∃ c cs, t.chars format depth = c :: cs ∧ isBlank c = false := by
  obtain ⟨kind, optional, properties, items⟩ := t
  cases kind with
  | array | string | number | boolean | null | any => exact ⟨_, _, rfl, rfl⟩
  | object =>
      cases properties with
      | nil => exact ⟨_, _, rfl, rfl⟩
      | cons p ps => cases format <;> exact ⟨_, _, rfl, rfl⟩

end Schema

namespace Parse

open State Schema

/-! ## Reading characters -/

/-- Reading `cs` before `rest` takes the parser from `s` to `s'`. -/
def Goes (s : State) (cs rest : List Char) (s' : State) : Prop :=
  ∀ offset, ∃ offset', run (some 128) s (Scanner.lexemes ⟨cs ++ rest, offset⟩) =
    run (some 128) s' (Scanner.lexemes ⟨rest, offset'⟩)

variable {s s' s₁ : State} {cs ds rest : List Char} {token : Token}

theorem goes_nil (s : State) (rest : List Char) : Goes s [] rest s := by
  intro offset
  exact ⟨offset, rfl⟩

theorem Goes.trans (h : Goes s cs (ds ++ rest) s₁) (h' : Goes s₁ ds rest s') :
    Goes s (cs ++ ds) rest s' := by
  intro offset
  obtain ⟨offset₁, hrun⟩ := h offset
  obtain ⟨offset', hrun'⟩ := h' offset₁
  refine ⟨offset', ?_⟩
  rw [List.append_assoc, hrun, hrun']

/-- A lexeme is read by a move, within the limit if it is an opening bracket. -/
theorem goes_lexeme {c : Char} (hmunch : munch c (cs ++ rest) = (some token, cs))
    (hmove : ∀ l, Is token l → l.text = String.ofList (c :: cs) → Moves s l s')
    (hroom : s.depth < 128 ∨ (token ≠ .openBracket ∧ token ≠ .openBrace)) :
    Goes s (c :: cs) rest s' := by
  intro offset
  refine ⟨offset + utf8Length (c :: cs), ?_⟩
  have hl : Is token (.token token (String.ofList (c :: cs))
      ⟨offset, offset + utf8Length (c :: cs)⟩) := rfl
  rw [List.cons_append, Scanner.lexemes_cons offset hmunch]
  refine run_cons _ (step_of_moves (hmove _ hl rfl) ?_)
  intro hopens n hn
  cases hn
  rcases hroom with hroom | hroom
  · exact hroom
  · rw [opens_of_is hl, decide_eq_true_eq] at hopens
    rcases hopens with rfl | rfl
    · exact absurd rfl hroom.1
    · exact absurd rfl hroom.2

theorem goes_mark {c : Char} (hc : Token.ofPunctuation? c = some token)
    (hmove : ∀ l, Is token l → Moves s l s')
    (hroom : s.depth < 128 ∨ (token ≠ .openBracket ∧ token ≠ .openBrace)) :
    Goes s [c] rest s' :=
  goes_lexeme (munch_punctuation _ hc) (fun l hl _ => hmove l hl) hroom

/-- A mark that opens nothing needs no room. -/
theorem goes_mark_flat {c : Char} (hc : Token.ofPunctuation? c = some token)
    (hflat : decide (token = .openBracket ∨ token = .openBrace) = false)
    (hmove : ∀ l, Is token l → Moves s l s') : Goes s [c] rest s' :=
  goes_mark hc hmove (Or.inr (not_or.mp (of_decide_eq_false hflat)))

theorem goes_break (hmove : ∀ l, Is .newline l → Moves s l s') (hrest : Apart isBreak rest) :
    Goes s ['\n'] rest s' :=
  goes_lexeme (munch_breaks rfl nofun hrest) (fun l hl _ => hmove l hl) (Or.inr ⟨nofun, nofun⟩)

theorem goes_blanks (s : State) (hcs : ∀ c ∈ cs, isBlank c = true) (hrest : Apart isBlank rest) :
    Goes s cs rest s := by
  cases cs with
  | nil => exact goes_nil s rest
  | cons c cs =>
      obtain ⟨hc, hcs⟩ := List.forall_mem_cons.mp hcs
      intro offset
      refine ⟨offset + utf8Length (c :: cs), ?_⟩
      rw [List.cons_append, Scanner.lexemes_cons offset (munch_blanks hc hcs hrest)]
      exact run_cons _ (step_whitespace rfl)

theorem isBlank_of_mem_indentation {depth : Nat} {c : Char} (h : c ∈ indentation depth) :
    isBlank c = true := by
  rw [List.eq_of_mem_replicate h]
  rfl

/-! ## The parts of a text -/

/-- The declaration of a kind that is written as a keyword. -/
theorem goes_keyword {stack : List Frame} {kind : Kind} {word : String}
    (hs : s.typeStack? = some stack) (hword : kind.keyword? = some word)
    (hrest : Apart isWordPart rest) :
    Goes s word.toList rest ⟨stack, .declared (.ofKind kind)⟩ := by
  have hkind : (Token.ofWord word.toList).kind? = some kind := Token.kind?_ofWord hword
  obtain ⟨c, cs, hchars, hc, hcs⟩ : ∃ c cs, word.toList = c :: cs ∧ isWordStart c = true ∧
      ∀ d ∈ cs, isWordPart d = true := by
    cases kind <;> cases hword <;> exact ⟨_, _, rfl, rfl, List.all_eq_true.mp rfl⟩
  rw [hchars] at hkind ⊢
  exact goes_lexeme (munch_word hc hcs hrest) (fun l hl _ => .keyword hs hl hkind)
    (Or.inr (not_bracket_of_kind hkind).1)

/-- The name of a property and its colon. -/
theorem goes_name {stack : List Frame} {done : List (String × Schema)} {name : String}
    (hname : IsName name) :
    Goes ⟨stack, .propertyDue done⟩ (name.toList ++ [':']) rest
      ⟨.object done name :: stack, .typeDue⟩ := by
  obtain ⟨c, cs, hchars, hc, hcs, hkeyword⟩ := hname
  have hidentifier : Token.ofWord (c :: cs) = .identifier := by
    rw [hchars] at hkeyword
    exact Token.ofWord_eq_identifier hkeyword
  have hname : name = String.ofList (c :: cs) := by rw [← hchars, String.ofList_toList]
  have hword : munch c (cs ++ ':' :: rest) = (some .identifier, cs) := by
    rw [← hidentifier]
    exact munch_word hc hcs (apart_cons rest rfl)
  rw [hchars]
  refine Goes.trans (goes_lexeme hword (fun l hl htext => ?_) (Or.inr ⟨nofun, nofun⟩))
    (goes_mark_flat rfl rfl (fun l hl => .colon hl))
  rw [hname, ← htext]
  exact .name hl

/-- The mark of an optional type, or none. -/
theorem exists_goes_optional {stack : List Frame} {t : Schema} (optional : Bool)
    (h : Goes s cs ((if optional then ['?'] else []) ++ rest) ⟨stack, .declared t⟩)
    (ht : t.optional = false) :
    ∃ point : Point, point.type? = some (t.withOptional optional) ∧
      Goes s (cs ++ if optional then ['?'] else []) rest ⟨stack, point⟩ := by
  cases optional with
  | false =>
      refine ⟨.declared t, ?_, h.trans (goes_nil _ rest)⟩
      obtain ⟨kind, optional, properties, items⟩ := t
      cases ht
      rfl
  | true =>
      exact ⟨.typed t.asOptional, rfl,
        h.trans (goes_mark_flat rfl rfl (fun l hl => .question hl))⟩

theorem apart_optional (optional : Bool) (h : Apart isWordPart rest) :
    Apart isWordPart ((if optional then ['?'] else []) ++ rest) := by
  cases optional with
  | false => exact h
  | true => exact apart_cons rest rfl

/-- The text of the tree is read as its parts that matter. -/
def ReadsBack (format : Format) (t : Schema) : Prop :=
  ∀ (s : State) (stack : List Frame) (depth : Nat) (rest : List Char),
    s.typeStack? = some stack → stack.length + t.levels ≤ 128 → Apart isWordPart rest →
    ∃ point : Point, point.type? = some t.strip ∧
      Goes s (t.chars format depth) rest ⟨stack, point⟩

/-! ## The kinds of nodes -/

theorem readsBack_keyword (format : Format) {kind : Kind} {word : String} (optional : Bool)
    (properties : List (String × Schema)) (items : Option Schema)
    (hword : kind.keyword? = some word) :
    ReadsBack format ⟨kind, optional, properties, items⟩ := by
  intro s stack depth rest hs _ hrest
  have htext : chars format depth ⟨kind, optional, properties, items⟩ =
      word.toList ++ if optional then ['?'] else [] := by
    cases kind <;> cases hword <;> rfl
  have hstrip : strip ⟨kind, optional, properties, items⟩ =
      (Schema.ofKind kind).withOptional optional := by
    cases kind <;> cases hword <;> rfl
  rw [htext, hstrip]
  exact exists_goes_optional optional (goes_keyword hs hword (apart_optional optional hrest)) rfl

theorem readsBack_array {format : Format} (optional : Bool)
    (properties : List (String × Schema)) {items : Option Schema}
    (hitems : ∀ t, items = some t → ReadsBack format t) :
    ReadsBack format ⟨.array, optional, properties, items⟩ := by
  intro s stack depth rest hs hroom hrest
  have hopen : s.depth < 128 := by
    rw [levels] at hroom
    rw [depth_typeStack hs]
    omega
  have htext : chars format depth ⟨.array, optional, properties, items⟩ =
      (['['] ++ (itemChars format depth items ++ [']'])) ++ if optional then ['?'] else [] := by
    rw [chars, List.append_assoc, List.append_assoc]
    rfl
  have hstrip : strip ⟨.array, optional, properties, items⟩ =
      withOptional { kind := .array, items := stripItems items } optional := rfl
  rw [htext, hstrip]
  refine exists_goes_optional optional ?_ rfl
  refine Goes.trans (goes_mark rfl (fun l hl => .openArray hs hl) (Or.inl hopen)) ?_
  cases items with
  | none => exact goes_mark_flat rfl rfl (fun l hl => .emptyArray hl)
  | some t =>
      have hinner : (Frame.array :: stack).length + t.levels ≤ 128 := by
        rw [levels, levelsOfItems] at hroom
        rw [List.length_cons]
        omega
      obtain ⟨point, hpoint, hgoes⟩ := hitems t rfl ⟨stack, .itemsDue⟩ (.array :: stack) depth
        ([']'] ++ ((if optional then ['?'] else []) ++ rest)) rfl hinner (apart_cons _ rfl)
      exact hgoes.trans (goes_mark_flat rfl rfl (fun l hl => .closeArray hpoint hl))

/-- A property up to the end of its type.  Blanks may follow the colon. -/
theorem exists_goes_property {format : Format} {stack : List Frame}
    {done : List (String × Schema)} {name : String} {t : Schema} (gap : List Char) (depth : Nat)
    (hname : IsName name) (ht : ReadsBack format t) (hgap : ∀ c ∈ gap, isBlank c = true)
    (hroom : stack.length + t.levels < 128) (hrest : Apart isWordPart rest) :
    ∃ point : Point, point.type? = some t.strip ∧
      Goes ⟨stack, .propertyDue done⟩ (name.toList ++ ':' :: (gap ++ t.chars format depth)) rest
        ⟨.object done name :: stack, point⟩ := by
  have hinner : (Frame.object done name :: stack).length + t.levels ≤ 128 := by
    rw [List.length_cons]
    omega
  obtain ⟨point, hpoint, hgoes⟩ := ht ⟨.object done name :: stack, .typeDue⟩
    (.object done name :: stack) depth rest rfl hinner hrest
  refine ⟨point, hpoint, ?_⟩
  have htext : name.toList ++ ':' :: (gap ++ t.chars format depth) =
      (name.toList ++ [':']) ++ (gap ++ t.chars format depth) := by
    rw [List.append_assoc]
    rfl
  have hapart : Apart isBlank (t.chars format depth ++ rest) := by
    obtain ⟨c, cs, hchars, hc⟩ := exists_head_chars format depth t
    rw [hchars]
    exact apart_cons _ hc
  rw [htext]
  exact (goes_name hname).trans ((goes_blanks _ hgap hapart).trans hgoes)

/-! ## Properties -/

/-- The text of properties in the canonical format, with the closing bracket. -/
def memberText (depth : Nat) (ps : List (String × Schema)) : List Char :=
  List.intercalate [';'] ((memberChars .canonical depth ps).map
    fun m => m.1.toList ++ ':' :: m.2) ++ ['}']

/-- The text of properties in the pretty format, a line each. -/
def lineText (depth : Nat) (ps : List (String × Schema)) : List Char :=
  (memberChars .pretty depth ps).flatMap fun m =>
    indentation depth ++ (m.1.toList ++ ':' :: ' ' :: (m.2 ++ ['\n']))

theorem memberText_singleton (depth : Nat) (p : String × Schema) :
    memberText depth [p] = (p.1.toList ++ ':' :: ([] ++ p.2.chars .canonical depth)) ++ ['}'] := by
  rw [memberText, memberChars, memberChars, List.map_cons, List.map_nil,
    List.intercalate_singleton]
  rfl

theorem memberText_cons (depth : Nat) (p p' : String × Schema) (ps : List (String × Schema)) :
    memberText depth (p :: p' :: ps) =
      (p.1.toList ++ ':' :: ([] ++ p.2.chars .canonical depth)) ++
        ([';'] ++ memberText depth (p' :: ps)) := by
  rw [memberText, memberChars, memberChars, List.map_cons, List.map_cons,
    List.intercalate_cons_cons, List.append_assoc, List.append_assoc]
  rfl

theorem lineText_cons (depth : Nat) (p : String × Schema) (ps : List (String × Schema)) :
    lineText depth (p :: ps) =
      indentation depth ++ ((p.1.toList ++ ':' :: ([' '] ++ p.2.chars .pretty depth)) ++
        (['\n'] ++ lineText depth ps)) := by
  simp [lineText, memberChars]

/-- A line break ends before the next line, which is indented. -/
theorem apart_lineText (depth : Nat) (ps : List (String × Schema)) (hrest : Apart isBreak rest) :
    Apart isBreak (lineText (depth + 1) ps ++ rest) := by
  cases ps with
  | nil => exact hrest
  | cons p ps => exact apart_cons _ rfl

/-- A name after those that are done goes to the end of the map. -/
theorem insert_done {done ps : List (String × Schema)} {p : String × Schema}
    (h : NameMap.Ascending (done ++ stripProperties (p :: ps))) :
    NameMap.insert p.1 p.2.strip done = done ++ [(p.1, p.2.strip)] := by
  refine NameMap.insert_append _ fun q hq => ?_
  exact (List.pairwise_append.mp h).2.2 q hq (p.1, p.2.strip) List.mem_cons_self

theorem goes_members {stack : List Frame} {done ps : List (String × Schema)}
    {p : String × Schema} (depth : Nat)
    (hps : ∀ q ∈ p :: ps, IsName q.1 ∧ ReadsBack .canonical q.2)
    (hroom : ∀ q ∈ p :: ps, stack.length + q.2.levels < 128)
    (hdone : NameMap.Ascending (done ++ stripProperties (p :: ps))) :
    Goes ⟨stack, .propertyDue done⟩ (memberText depth (p :: ps)) rest
      ⟨stack, .declared { kind := .object, properties := done ++ stripProperties (p :: ps) }⟩ := by
  induction ps generalizing p done with
  | nil =>
      obtain ⟨hname, ht⟩ := hps p List.mem_cons_self
      have hclose : Apart isWordPart (['}'] ++ rest) := apart_cons rest rfl
      obtain ⟨point, hpoint, hgoes⟩ :=
        exists_goes_property [] depth hname ht nofun (hroom p List.mem_cons_self) hclose
      rw [memberText_singleton]
      refine hgoes.trans (goes_mark_flat rfl rfl (fun l hl => ?_))
      rw [stripProperties, stripProperties, ← insert_done hdone]
      exact .closeTyped hpoint hl
  | cons p' ps ih =>
      obtain ⟨hname, ht⟩ := hps p List.mem_cons_self
      have hdone' : NameMap.Ascending
          ((done ++ [(p.1, p.2.strip)]) ++ stripProperties (p' :: ps)) := by
        rw [List.append_assoc]
        exact hdone
      have hmembers := ih (fun q hq => hps q (List.mem_cons_of_mem _ hq))
        (fun q hq => hroom q (List.mem_cons_of_mem _ hq)) hdone'
      rw [List.append_assoc] at hmembers
      have hsemicolon : Apart isWordPart ([';'] ++ memberText depth (p' :: ps) ++ rest) :=
        apart_cons _ rfl
      obtain ⟨point, hpoint, hgoes⟩ :=
        exists_goes_property [] depth hname ht nofun (hroom p List.mem_cons_self) hsemicolon
      rw [memberText_cons]
      refine hgoes.trans (Goes.trans (goes_mark_flat rfl rfl (fun l hl => ?_))
        hmembers)
      rw [← insert_done hdone]
      exact .endProperty hpoint (Or.inl hl)

theorem goes_lines {stack : List Frame} {done ps : List (String × Schema)} (depth : Nat)
    (hps : ∀ q ∈ ps, IsName q.1 ∧ ReadsBack .pretty q.2)
    (hroom : ∀ q ∈ ps, stack.length + q.2.levels < 128)
    (hdone : NameMap.Ascending (done ++ stripProperties ps)) (hrest : Apart isBreak rest) :
    Goes ⟨stack, .propertyDue done⟩ (lineText (depth + 1) ps) rest
      ⟨stack, .propertyDue (done ++ stripProperties ps)⟩ := by
  induction ps generalizing done with
  | nil =>
      rw [stripProperties, List.append_nil]
      exact goes_nil _ rest
  | cons p ps ih =>
      obtain ⟨hname, ht⟩ := hps p List.mem_cons_self
      have hdone' : NameMap.Ascending ((done ++ [(p.1, p.2.strip)]) ++ stripProperties ps) := by
        rw [List.append_assoc]
        exact hdone
      have hlines := ih (fun q hq => hps q (List.mem_cons_of_mem _ hq))
        (fun q hq => hroom q (List.mem_cons_of_mem _ hq)) hdone'
      rw [List.append_assoc] at hlines
      have hbreak : Apart isWordPart (['\n'] ++ lineText (depth + 1) ps ++ rest) :=
        apart_cons _ rfl
      obtain ⟨point, hpoint, hgoes⟩ := exists_goes_property [' '] (depth + 1) hname ht
        (List.forall_mem_singleton.mpr rfl) (hroom p List.mem_cons_self) hbreak
      have hindent : Apart isBlank
          ((p.1.toList ++ ':' :: ([' '] ++ p.2.chars .pretty (depth + 1))) ++
            (['\n'] ++ lineText (depth + 1) ps) ++ rest) := by
        obtain ⟨c, cs, hchars, hc, -⟩ := hname
        rw [hchars]
        exact apart_cons _ (isBlank_of_isWordStart hc)
      rw [lineText_cons]
      refine (goes_blanks _ (fun c => isBlank_of_mem_indentation) hindent).trans
        (hgoes.trans (Goes.trans (goes_break (fun l hl => ?_) ?_) hlines))
      · rw [← insert_done hdone]
        exact .endProperty hpoint (Or.inr hl)
      · exact apart_lineText depth ps hrest

theorem readsBack_object {format : Format} (optional : Bool)
    {properties : List (String × Schema)} (items : Option Schema)
    (hps : ∀ p ∈ properties, IsName p.1 ∧ ReadsBack format p.2)
    (horder : NameMap.Ascending properties) :
    ReadsBack format ⟨.object, optional, properties, items⟩ := by
  intro s stack depth rest hs hroom hrest
  rw [levels] at hroom
  have hopen : s.depth < 128 := by
    rw [depth_typeStack hs]
    omega
  have hinner : ∀ p ∈ properties, stack.length + p.2.levels < 128 := by
    intro p hp
    have hlevels := levels_le_of_mem hp
    omega
  have hdone : NameMap.Ascending ([] ++ stripProperties properties) :=
    ascending_stripProperties horder
  have hbrace : ∀ after, Goes s ['{'] after ⟨stack, .propertyDue []⟩ := by
    intro after
    exact goes_mark rfl (fun l hl => .openObject hs hl) (Or.inl hopen)
  have hstrip : strip ⟨.object, optional, properties, items⟩ =
      withOptional { kind := .object, properties := stripProperties properties } optional := rfl
  rw [hstrip, chars]
  refine exists_goes_optional optional ?_ rfl
  cases properties with
  | nil =>
      exact (hbrace _).trans (goes_mark_flat rfl rfl (fun l hl => .closeObject hl))
  | cons p ps =>
      cases format with
      | canonical => exact (hbrace _).trans (goes_members (depth + 1) hps hinner hdone)
      | pretty =>
          have hclose : Apart isBreak (indentation depth ++ ['}'] ++
              ((if optional then ['?'] else []) ++ rest)) := by
            cases depth <;> exact apart_cons _ rfl
          have htext : Format.pretty.object depth (memberChars .pretty (depth + 1) (p :: ps)) =
              ['{'] ++ (['\n'] ++
                (lineText (depth + 1) (p :: ps) ++ (indentation depth ++ ['}']))) := rfl
          rw [htext]
          refine (hbrace _).trans (Goes.trans (goes_break (fun l hl => .propertyBreak hl) ?_)
            ((goes_lines depth hps hinner hdone ?_).trans
              ((goes_blanks _ (fun c => isBlank_of_mem_indentation) (apart_cons _ rfl)).trans
                (goes_mark_flat rfl rfl (fun l hl => .closeObject hl)))))
          · exact apart_lineText depth (p :: ps) hclose
          · exact hclose

theorem readsBack_of_named (format : Format) {t : Schema} (hn : Named t) (ho : Ordered t) :
    ReadsBack format t := by
  induction t with
  | node kind optional properties items ihproperties ihitems =>
      cases hn with
      | node hnames hnamed hitems =>
          cases ho with
          | node horder hordered horderedItems =>
              cases kind with
              | array =>
                  refine readsBack_array optional properties fun t ht => ?_
                  exact ihitems t ht (hitems rfl t ht) (horderedItems t ht)
              | object =>
                  refine readsBack_object optional items (fun p hp => ⟨hnames rfl p hp, ?_⟩) horder
                  exact ihproperties p hp (hnamed rfl p hp) (hordered p hp)
              | string | number | boolean | null | any =>
                  exact readsBack_keyword format optional properties items rfl

end Parse

/-- A text that is read back makes a whole source. -/
theorem Parse.parse_of_readsBack {format : Format} {t : Schema} (h : Parse.ReadsBack format t)
    (hl : t.levels ≤ 128) : parse (t.render format) = .ok t.strip := by
  have hroom : ([] : List Parse.Frame).length + t.levels ≤ 128 := by
    rw [List.length_nil, Nat.zero_add]
    exact hl
  obtain ⟨point, hpoint, hgoes⟩ := h .start [] 0 [] rfl hroom (apart_nil isWordPart)
  obtain ⟨offset, hrun⟩ := hgoes 0
  rw [List.append_nil, Scanner.lexemes_nil, Parse.State.run_nil] at hrun
  have htokenize : tokenize (t.render format) = Scanner.lexemes ⟨t.chars format 0, 0⟩ := by
    rw [tokenize, Scanner.ofSource, Schema.render, String.toList_ofList]
  have hfinish : Parse.State.finish ⟨[], point⟩ = .ok t.strip :=
    Parse.State.finish_eq_ok_iff.mpr ⟨rfl, hpoint⟩
  rw [parse, parseWithin, htokenize, Parse.ofLexemes, maxDepth, hrun]
  exact hfinish

/-- The text of a printable tree, whose properties are maps, is read as the tree without the
parts that are not used, in both formats.  A tree without such parts is read as itself. -/
theorem parse_render (format : Format) {t : Schema} (h : t.Printable) (ho : t.Ordered) :
    parse (t.render format) = .ok t.strip ∧ (t.Trim → parse (t.render format) = .ok t) := by
  have hparse : parse (t.render format) = .ok t.strip :=
    Parse.parse_of_readsBack (Parse.readsBack_of_named format h.named ho) h.levels_le
  refine ⟨hparse, fun htrim => ?_⟩
  rw [hparse, Schema.strip_of_trim htrim]

/-- An optional object with an array of objects in it, and with an item type at a node that
does not use it. -/
def nestedTree : Schema :=
  { kind := .object
    optional := true
    properties :=
      [("a_1", .array (.object [])),
        ("strings", { kind := .string, optional := true, items := some .emptyArray })] }

theorem parse_render_nestedTree :
    (nestedTree.Printable ∧ nestedTree.Ordered ∧ nestedTree.strip ≠ nestedTree) ∧
      parse (nestedTree.render .pretty) =
        .ok (Schema.object [("a_1", .array (.object [])),
          ("strings", Schema.string.asOptional)]).asOptional := by
  have hname : ∀ p ∈ nestedTree.properties, Schema.IsName p.1 := by
    refine List.forall_mem_cons.mpr ⟨?_, List.forall_mem_singleton.mpr ?_⟩
    · refine ⟨'a', ['_', '1'], rfl, rfl, List.all_eq_true.mp rfl, fun kind keyword h => ?_⟩
      cases kind <;> cases h <;> decide
    · refine ⟨'s', "trings".toList, rfl, rfl, List.all_eq_true.mp rfl, fun kind keyword h => ?_⟩
      cases kind <;> cases h <;> decide
  have hnamed : ∀ p ∈ nestedTree.properties, Schema.Named p.2 := by
    refine List.forall_mem_cons.mpr ⟨.node nofun nofun fun _ t ht => ?_,
      List.forall_mem_singleton.mpr (.node nofun nofun nofun)⟩
    cases ht
    exact .node nofun nofun nofun
  have hordered : ∀ p ∈ nestedTree.properties, Schema.Ordered p.2 := by
    refine List.forall_mem_cons.mpr ⟨.array (.ofKind .object), List.forall_mem_singleton.mpr ?_⟩
    exact ((Schema.Ordered.ofKind .string).withOptional true).withItems fun t ht => by
      cases ht
      exact .ofKind .array
  have hprintable : nestedTree.Printable :=
    ⟨.node (fun _ => hname) (fun _ => hnamed) nofun, by decide⟩
  have horder : nestedTree.Ordered := .of_parts (by decide) hordered nofun
  exact ⟨⟨hprintable, horder, by decide⟩, (parse_render .pretty hprintable horder).1⟩

end Jstn
