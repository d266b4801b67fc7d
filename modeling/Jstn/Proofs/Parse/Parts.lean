import Jstn.Proofs.Parse.Layout
import Jstn.Proofs.Parse.ViablePrefix
import Mathlib.Data.List.TakeWhile

/-!
# Objects put together from texts

A text that is parsed by itself may stand as the type of a property, whatever its layout.

* The parser inside the property takes the same steps as the parser of the text alone
  (`Inside`, `State.inside_step`).  They part where the text goes on with line breaks after
  its type: at the root they mean nothing, and in the object the first one ends the property
  and the others come before the next name.
* A line break after a text may become part of the text's last lexeme.  One line break is as
  good as several, so the text may be cut there all the same (`State.runSymbols_cut`).

The texts are read up to the places of errors (`Leads`), because the places in a part are
others than those in the whole.
-/

namespace Jstn

/-! ## Symbols of characters -/

/-- The symbols of characters. -/
def symbols (cs : List Char) : List Symbol := (Scanner.lexemes ⟨cs, 0⟩).map Lexeme.symbol

/-- Symbols do not depend on where the characters stand. -/
theorem map_symbol_lexemes (cs : List Char) (offset : Nat) :
    (Scanner.lexemes ⟨cs, offset⟩).map Lexeme.symbol = symbols cs := by
  have hrun : ∀ c more offset offset',
      (Lexeme.ofRun c more offset).symbol = (Lexeme.ofRun c more offset').symbol := by
    intro c more offset offset'
    unfold Lexeme.ofRun
    split
    next token _ => cases token <;> rfl
    next => rfl
  have hall : ∀ offset offset', (Scanner.lexemes ⟨cs, offset⟩).map Lexeme.symbol =
      (Scanner.lexemes ⟨cs, offset'⟩).map Lexeme.symbol := by
    induction cs using run_induction with
    | nil =>
        intro offset offset'
        rw [Scanner.lexemes_nil, Scanner.lexemes_nil]
    | cons c cs ih =>
        intro offset offset'
        rw [Scanner.lexemes_eq, Scanner.lexemes_eq, List.map_cons, List.map_cons,
          hrun c _ offset offset', ih _ (offset' + utf8Length (c :: cs.takeWhile (goesOn c)))]
  exact hall offset 0

theorem symbols_nil : symbols [] = [] := by
  rw [symbols, Scanner.lexemes_nil]
  rfl

/-- The symbol of a longest run. -/
def runSymbol (c : Char) (more : List Char) : Symbol := (Lexeme.ofRun c more 0).symbol

theorem symbols_cons (c : Char) (cs : List Char) :
    symbols (c :: cs) =
      runSymbol c (cs.takeWhile (goesOn c)) :: symbols (cs.dropWhile (goesOn c)) := by
  rw [symbols, Scanner.lexemes_eq, List.map_cons, map_symbol_lexemes]
  rfl

/-- A mark that no lexeme goes on with is a symbol of its own. -/
theorem symbols_append_mark {cs rest : List Char} {c : Char} (h : c ∈ [']', '}', ':']) :
    symbols (cs ++ c :: rest) = symbols cs ++ symbols (c :: rest) := by
  rw [symbols, Scanner.lexemes_append fun l _ => apart_cons rest (Parse.goesOn_mark l h),
    List.map_append, map_symbol_lexemes _ (0 + utf8Length cs)]
  rfl

theorem runSymbol_break {c : Char} (h : isBreak c = true) (more : List Char) :
    goesOn c = isBreak ∧ runSymbol c more = .token .newline := by
  have hblank : isBlank c = false := isBlank_of_isBreak h
  simp [goesOn, runSymbol, Lexeme.ofRun, tokenOf?, h, hblank, Lexeme.symbol]

theorem symbols_break {rest : List Char} (hrest : Apart isBreak rest) :
    symbols ('\n' :: rest) = .token .newline :: symbols rest := by
  have hnone : ∀ c ∈ ([] : List Char), isBreak c = true := nofun
  obtain ⟨hgoesOn, hsymbol⟩ := runSymbol_break (c := '\n') rfl []
  have htake := takeWhile_of_apart hnone hrest
  have hdrop := dropWhile_of_apart hnone hrest
  rw [List.nil_append] at htake hdrop
  rw [symbols_cons, hgoesOn, htake, hdrop, hsymbol]

namespace Parse

namespace State

variable {limit : Option Nat}

theorem runSymbols_append (limit : Option Nat) (s : State) (xs ys : List Symbol) :
    runSymbols limit s (xs ++ ys) = runSymbols limit s xs >>= fun s' => runSymbols limit s' ys :=
  List.foldlM_append

/-- Two texts that begin with the same symbol are read alike if the rest of them is. -/
theorem runSymbols_congr (x : Symbol) {xs ys : List Symbol}
    (h : ∀ s, runSymbols limit s xs = runSymbols limit s ys) (s : State) :
    runSymbols limit s (x :: xs) = runSymbols limit s (x :: ys) := by
  rw [runSymbols, runSymbols, List.foldlM_cons, List.foldlM_cons]
  exact congrArg _ (funext h)

/-- Two line breaks in a row are as one. -/
theorem runSymbols_newlines (s : State) (xs : List Symbol) :
    runSymbols limit s (.token .newline :: .token .newline :: xs) =
      runSymbols limit s (.token .newline :: xs) := by
  obtain ⟨s', hs, hs'⟩ := step_newline limit s
  rw [runSymbols_cons _ hs, runSymbols_cons _ hs, runSymbols_cons _ hs']

/-- A text may be cut before a line break, also where the break goes on with a run. -/
theorem runSymbols_cut (cs : List Char) {rest : List Char} (hrest : Apart isBreak rest)
    (s : State) :
    runSymbols limit s (symbols (cs ++ '\n' :: rest)) =
      runSymbols limit s (symbols cs ++ symbols ('\n' :: rest)) := by
  induction cs using run_induction generalizing s with
  | nil => rw [List.nil_append, symbols_nil, List.nil_append]
  | cons c cs ih =>
      rw [List.cons_append, symbols_cons, symbols_cons]
      by_cases hjoin : isBreak c = true ∧ cs.dropWhile (goesOn c) = []
      · -- The break goes on with the run, so it is no symbol of its own.
        obtain ⟨hc, hcs⟩ := hjoin
        obtain ⟨hgoesOn, -⟩ := runSymbol_break hc []
        rw [hgoesOn] at hcs ⊢
        have hall : ∀ d ∈ cs ++ ['\n'], isBreak d = true :=
          List.forall_mem_append.mpr ⟨List.dropWhile_eq_nil_iff.mp hcs,
            List.forall_mem_singleton.mpr rfl⟩
        rw [List.append_cons, takeWhile_of_apart hall hrest, dropWhile_of_apart hall hrest, hcs,
          symbols_nil, symbols_break hrest, (runSymbol_break hc _).2, (runSymbol_break hc _).2]
        exact (runSymbols_newlines s _).symm
      · have hapart : cs.dropWhile (goesOn c) = [] → Apart (goesOn c) ('\n' :: rest) := by
          intro hcs
          have hc : isBreak c = false := by simpa [hcs] using hjoin
          refine apart_cons rest ?_
          simp only [goesOn, hc, Bool.false_eq_true, if_false]
          split
          · rfl
          · split <;> rfl
        obtain ⟨htake, hdrop⟩ := takeWhile_dropWhile_append hapart
        rw [htake, hdrop]
        exact runSymbols_congr _ ih s

end State

/-! ## Inside a property -/

/-- A parser of a text alone, and one of the text as the type of a property. -/
inductive Inside (outer : List Frame) (done : List (String × Schema)) (name : String) :
    State → State → Prop
  /-- The property has not ended. -/
  | within {inner : List Frame} {point : Point} :
      Inside outer done name ⟨inner, point⟩ ⟨inner ++ .object done name :: outer, point⟩
  /-- A line break after the whole type has ended the property. -/
  | ended {t : Schema} :
      Inside outer done name ⟨[], .typed t⟩ ⟨outer, .propertyDue (NameMap.insert name t done)⟩

namespace State

variable {outer : List Frame} {done : List (String × Schema)} {name : String}
  {s s₁ s' : State} {l : Lexeme}

theorem typeStack?_append {inner stack : List Frame} {point : Point} (rest : List Frame)
    (h : typeStack? ⟨inner, point⟩ = some stack) :
    typeStack? ⟨inner ++ rest, point⟩ = some (stack ++ rest) := by
  cases point with
  | typeDue | itemsDue =>
      cases h
      rfl
  | declared _ | typed _ | propertyDue _ | colonDue _ _ => cases h

/-- Inside a property the frames of the object and of what is around it are open too. -/
theorem depth_inside (h : Inside outer done name s s') :
    s'.depth = s.depth + (outer.length + 1) := by
  cases h with
  | @within inner point =>
      cases point with
      | typeDue | declared _ | typed _ => simp only [depth, List.length_append, List.length_cons]
      | itemsDue | propertyDue _ | colonDue _ _ =>
          simp only [depth, List.length_append, List.length_cons]
          omega
  | ended => exact (Nat.zero_add _).symm

/-- A move of the parser of a text alone is a move inside the property. -/
theorem inside_moves (h : Inside outer done name s s') (hm : Moves s l s₁) :
    ∃ s₁', Moves s' l s₁' ∧ Inside outer done name s₁ s₁' := by
  cases h with
  | @within inner point =>
      cases hm with
      | typeBreak hl => exact ⟨_, .typeBreak hl, .within⟩
      | itemsBreak hl => exact ⟨_, .itemsBreak hl, .within⟩
      | openArray hs hl => exact ⟨_, .openArray (typeStack?_append _ hs) hl, .within⟩
      | openObject hs hl => exact ⟨_, .openObject (typeStack?_append _ hs) hl, .within⟩
      | keyword hs hl hk => exact ⟨_, .keyword (typeStack?_append _ hs) hl hk, .within⟩
      | emptyArray hl => exact ⟨_, .emptyArray hl, .within⟩
      | question hl => exact ⟨_, .question hl, .within⟩
      | typedBreak hp hstack hl =>
          match inner, hstack with
          | [], _ => exact ⟨_, .endProperty hp (Or.inr hl), .ended⟩
          | .array :: _, _ => exact ⟨_, .typedBreak hp trivial hl, .within⟩
      | closeArray hp hl => exact ⟨_, .closeArray hp hl, .within⟩
      | endProperty hp hl => exact ⟨_, .endProperty hp hl, .within⟩
      | closeTyped hp hl => exact ⟨_, .closeTyped hp hl, .within⟩
      | propertyBreak hl => exact ⟨_, .propertyBreak hl, .within⟩
      | closeObject hl => exact ⟨_, .closeObject hl, .within⟩
      | name hl => exact ⟨_, .name hl, .within⟩
      | colonBreak hl => exact ⟨_, .colonBreak hl, .within⟩
      | colon hl => exact ⟨_, .colon hl, .within⟩
  | ended =>
      cases hm with
      | typedBreak hp _ hl =>
          cases hp
          exact ⟨_, .propertyBreak hl, .ended⟩
      | openArray hs _ | openObject hs _ | keyword hs _ _ => cases hs

theorem inside_step {m : Nat} (h : Inside outer done name s s')
    (hs : step (some m) s l = .ok s₁) :
    ∃ s₁', step (some (m + (outer.length + 1))) s' l = .ok s₁' ∧
      Inside outer done name s₁ s₁' := by
  rcases step_iff.mp hs with ⟨hl, rfl⟩ | ⟨hm, hfits⟩
  · exact ⟨s', step_whitespace hl, h⟩
  · obtain ⟨s₁', hm', h₁⟩ := inside_moves h hm
    refine ⟨s₁', step_of_moves hm' fun ho n hn => ?_, h₁⟩
    cases hn
    have hroom := hfits ho m rfl
    rw [depth_inside h]
    omega

/-- What is read alone within a limit is read inside a property, where the limit allows for
the frames around it. -/
theorem inside_run {m : Nat} {ls : List Lexeme} (h : Inside outer done name s s')
    (hr : run (some m) s ls = .ok s₁) :
    ∃ s₁', run (some (m + (outer.length + 1))) s' ls = .ok s₁' ∧
      Inside outer done name s₁ s₁' := by
  induction ls generalizing s s' with
  | nil =>
      cases hr
      exact ⟨s', rfl, h⟩
  | cons l ls ih =>
      obtain ⟨s₂, hs, hr⟩ := run_cons_eq_ok.mp hr
      obtain ⟨s₂', hs', h₂⟩ := inside_step h hs
      obtain ⟨s₁', hr', h₁⟩ := ih h₂ hr
      exact ⟨s₁', by rw [run_cons ls hs', hr'], h₁⟩

end State

open State

/-! ## Parts of an object -/

/-- A name, a text for its type, and the tree that the text stands for. -/
structure Part where
  name : String
  source : String
  tree : Schema

namespace Part

/-- The name may be declared, and the text is parsed to the tree and leaves room for a bracket
around it. -/
structure Accepted (p : Part) : Prop where
  isName : Schema.IsName p.name
  parses : parse p.source = .ok p.tree
  nests : NestsWithin 127 (tokenize p.source)

/-- The characters of a property. -/
def chars (p : Part) : List Char := p.name.toList ++ ':' :: p.source.toList

/-- The property that a part declares. -/
def property (p : Part) : String × Schema := (p.name, p.tree)

end Part

/-- The text of an object whose properties stand on a line each. -/
def objectText (parts : List Part) : String :=
  String.ofList ('{' :: (List.intercalate ['\n'] (parts.map Part.chars) ++ ['}']))

/-- The type that a name is declared with last. -/
def lastTree? (parts : List Part) (name : String) : Option Schema :=
  (parts.reverse.find? fun p => p.name = name).map Part.tree

/-- Reading `cs` before `rest` takes the parser from `s` to `s'`, up to the places of errors. -/
def Leads (s : State) (cs rest : List Char) (s' : State) : Prop :=
  runSymbols (some 128) s (symbols (cs ++ rest)) = runSymbols (some 128) s' (symbols rest)

section

variable {s s₁ s' : State} {cs ds rest : List Char} {outer : List Frame}
  {done : List (String × Schema)} {p : Part}

theorem Goes.leads (h : Goes s cs rest s') : Leads s cs rest s' := by
  obtain ⟨offset', hrun⟩ := h 0
  have hunplaced := congrArg unplaced hrun
  rw [unplaced_run, unplaced_run, map_symbol_lexemes, map_symbol_lexemes] at hunplaced
  exact hunplaced

theorem Leads.trans (h : Leads s cs (ds ++ rest) s₁) (h' : Leads s₁ ds rest s') :
    Leads s (cs ++ ds) rest s' := by
  rw [Leads, List.append_assoc]
  exact Eq.trans h h'

/-- A part's text in its property. -/
theorem Part.Accepted.inside (h : p.Accepted) (done : List (String × Schema)) :
    ∃ point s', point.type? = some p.tree ∧ Inside [] done p.name ⟨[], point⟩ s' ∧
      runSymbols (some 128) ⟨[.object done p.name], .typeDue⟩ (symbols p.source.toList)
        = .ok s' := by
  have hlimit : ofLexemes (some 127) (tokenize p.source) = .ok p.tree :=
    ofLexemes_limit_iff.mpr ⟨(ofLexemes_limit_iff.mp h.parses).1, h.nests⟩
  obtain ⟨⟨stack, point⟩, hrun, hfinish⟩ := ofLexemes_eq_ok_iff.mp hlimit
  obtain ⟨rfl, hp⟩ : stack = [] ∧ point.type? = some p.tree := finish_eq_ok_iff.mp hfinish
  have hstart : Inside [] done p.name start ⟨[.object done p.name], .typeDue⟩ := .within
  obtain ⟨s', hrun', hinside⟩ := inside_run hstart hrun
  refine ⟨point, s', hp, hinside, ?_⟩
  have hunplaced := congrArg unplaced hrun'
  rw [unplaced_run] at hunplaced
  exact hunplaced

/-- A part's text and the character after it, which ends the property. -/
theorem leads_part {c : Char} (h : p.Accepted)
    (hcut : ∀ s, runSymbols (some 128) s (symbols (p.source.toList ++ c :: rest)) =
      runSymbols (some 128) s (symbols p.source.toList ++ symbols (c :: rest)))
    (hend : ∀ point s', point.type? = some p.tree → Inside [] done p.name ⟨[], point⟩ s' →
      Leads s' [c] rest s₁) :
    Leads ⟨[.object done p.name], .typeDue⟩ (p.source.toList ++ [c]) rest s₁ := by
  obtain ⟨point, s', hp, hinside, hrun⟩ := h.inside done
  rw [Leads, List.append_assoc, List.singleton_append, hcut, runSymbols_append, hrun]
  exact hend point s' hp hinside

/-- A part that a line break ends. -/
theorem leads_line (h : p.Accepted) (hrest : Apart isBreak rest) :
    Leads ⟨[.object done p.name], .typeDue⟩ (p.source.toList ++ ['\n']) rest
      ⟨[], .propertyDue (NameMap.insert p.name p.tree done)⟩ := by
  refine leads_part h (runSymbols_cut _ hrest) fun point s' hp hinside => ?_
  cases hinside with
  | within => exact (goes_break (fun l hl => .endProperty hp (Or.inr hl)) hrest).leads
  | ended =>
      cases hp
      exact (goes_break (fun l hl => .propertyBreak hl) hrest).leads

/-- A part that the closing bracket ends. -/
theorem leads_lastPart (h : p.Accepted) :
    Leads ⟨[.object done p.name], .typeDue⟩ (p.source.toList ++ ['}']) rest
      ⟨[], .declared
        { kind := .object, properties := NameMap.insert p.name p.tree done }⟩ := by
  refine leads_part h (fun s => ?_) fun point s' hp hinside => ?_
  · rw [symbols_append_mark (by simp)]
  · cases hinside with
    | within => exact (goes_mark_flat rfl rfl (fun l hl => .closeTyped hp hl)).leads
    | ended =>
        cases hp
        exact (goes_mark_flat rfl rfl (fun l hl => .closeObject hl)).leads

/-- Parts on a line each, up to the end of the object. -/
theorem leads_parts (p : Part) (ps : List Part) (h : ∀ q ∈ p :: ps, q.Accepted)
    (done : List (String × Schema)) :
    Leads ⟨[], .propertyDue done⟩
      (List.intercalate ['\n'] ((p :: ps).map Part.chars) ++ ['}']) []
      ⟨[], .declared
        { kind := .object
          properties := ((p :: ps).map Part.property).foldl
            (fun m q => NameMap.insert q.1 q.2 m) done }⟩ := by
  induction ps generalizing p done with
  | nil =>
      have hp := List.forall_mem_singleton.mp h
      have htext : List.intercalate ['\n'] ([p].map Part.chars) ++ ['}'] =
          (p.name.toList ++ [':']) ++ (p.source.toList ++ ['}']) := by
        simp [Part.chars]
      rw [htext]
      exact (goes_name hp.isName).leads.trans (leads_lastPart hp)
  | cons q ps ih =>
      obtain ⟨hp, hrest⟩ := List.forall_mem_cons.mp h
      have hq := hrest q List.mem_cons_self
      have htext : List.intercalate ['\n'] ((p :: q :: ps).map Part.chars) ++ ['}'] =
          (p.name.toList ++ [':']) ++ ((p.source.toList ++ ['\n']) ++
            (List.intercalate ['\n'] ((q :: ps).map Part.chars) ++ ['}'])) := by
        simp [Part.chars, List.intercalate_cons_cons]
      have hapart : Apart isBreak
          (List.intercalate ['\n'] ((q :: ps).map Part.chars) ++ ['}'] ++ []) := by
        obtain ⟨c, cs, hchars, hc, -⟩ := hq.isName
        cases ps <;> simp [Part.chars, hchars, List.intercalate_cons_cons, Apart,
          isBreak_of_isWordStart hc]
      rw [htext]
      exact (goes_name hp.isName).leads.trans ((leads_line hp hapart).trans (ih q hrest _))

end

theorem parse_eq_ok_of_leads {source : String} {t : Schema}
    (h : Leads start source.toList [] ⟨[], .declared t⟩) : parse source = .ok t := by
  refine eq_ok_of_unplaced ?_
  rw [Leads, List.append_nil, symbols_nil] at h
  have hsymbols : (tokenize source).map Lexeme.symbol = symbols source.toList := rfl
  rw [parse, parseWithin, unplaced_ofLexemes, hsymbols, ofSymbols, maxDepth, h]
  rfl

theorem parse_objectText_eq {parts : List Part} (h : ∀ p ∈ parts, p.Accepted) :
    parse (objectText parts) = .ok (Schema.object (parts.map Part.property)) := by
  have hbrace : ∀ rest, Leads start ['{'] rest ⟨[], .propertyDue []⟩ := fun rest =>
    (goes_mark rfl (fun l hl => .openObject rfl hl) (Or.inl (by decide))).leads
  refine parse_eq_ok_of_leads ?_
  rw [objectText, String.toList_ofList]
  cases parts with
  | nil =>
      exact (hbrace _).trans (goes_mark_flat rfl rfl (fun l hl => .closeObject hl)).leads
  | cons p ps => exact (hbrace _).trans (leads_parts p ps h [])

theorem property?_object (parts : List Part) (name : String) :
    (Schema.object (parts.map Part.property)).property? name = lastTree? parts name := by
  rw [Schema.property?_object, Schema.lastOf?, lastTree?, ← List.map_reverse, List.find?_map,
    Option.map_map]
  rfl

end Parse

open Parse

/-- The text of an object that is put together from texts of its types is parsed to the object
of their trees, whatever the layout of the texts.  A name that is declared more than once has
the last of its types, and beyond that the order of the parts does not matter. -/
theorem parse_objectText {parts : List Part} (h : ∀ p ∈ parts, p.Accepted) :
    parse (objectText parts) = .ok (Schema.object (parts.map Part.property)) ∧
      (∀ name, (Schema.object (parts.map Part.property)).property? name =
        lastTree? parts name) ∧
      ∀ others : List Part, (∀ p ∈ others, p.Accepted) →
        (∀ name, lastTree? others name = lastTree? parts name) →
        parse (objectText others) = parse (objectText parts) := by
  refine ⟨parse_objectText_eq h, property?_object parts, fun others ho hsame => ?_⟩
  have hobject : Schema.object (others.map Part.property) =
      Schema.object (parts.map Part.property) := by
    rw [Schema.object, Schema.object]
    congr 1
    refine NameMap.eq_of_find?_eq (NameMap.ascending_ofPairs _) (NameMap.ascending_ofPairs _) ?_
    intro name
    exact (property?_object others name).trans
      ((hsame name).trans (property?_object parts name).symm)
  rw [parse_objectText_eq ho, parse_objectText_eq h, hobject]

/-- Two names of one letter, one of them declared twice, and texts with line breaks and blanks
around their types. -/
def letterParts : List Part :=
  [⟨"b", "[any]?\n\n", (Schema.array .any).asOptional⟩, ⟨"a", "\n string ", .string⟩,
    ⟨"b", "number\n", .number⟩]

/-- Line breaks between texts and after them are not taken for properties, and the last type
of a name is its type. -/
theorem parse_objectText_letterParts :
    (∀ p ∈ letterParts, p.Accepted) ∧
      objectText letterParts = "\x7bb:[any]?\n\n\na:\n string \nb:number\n\x7d" ∧
      parse (objectText letterParts) =
        .ok { kind := .object, properties := [("a", .string), ("b", .number)] } := by
  have hnames : ∀ p ∈ letterParts, Schema.IsName p.name := by
    have ha : Schema.IsName "a" := ⟨'a', [], rfl, rfl, nofun, fun kind keyword h => by
      cases kind <;> cases h <;> decide⟩
    have hb : Schema.IsName "b" := ⟨'b', [], rfl, rfl, nofun, fun kind keyword h => by
      cases kind <;> cases h <;> decide⟩
    simp only [letterParts, List.forall_mem_cons]
    exact ⟨hb, ha, hb, nofun⟩
  have hparses : ∀ p ∈ letterParts, parse p.source = .ok p.tree ∧
      parseWithin (some 127) p.source = .ok p.tree := by decide +kernel
  have haccepted : ∀ p ∈ letterParts, p.Accepted := fun p hp =>
    ⟨hnames p hp, (hparses p hp).1, (ofLexemes_limit_iff.mp (hparses p hp).2).2⟩
  exact ⟨haccepted, by decide, (parse_objectText haccepted).1⟩

end Jstn
