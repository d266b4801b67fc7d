import Jstn.Proofs.Lexeme.Boundaries
import Jstn.Proofs.Print

/-!
# The trees that parsing gives

A tree is well formed if every node has only the parts that its kind uses, every property
has a name, and no way down the tree goes through more than 128 containers.  Parsing gives
well-formed trees, and it gives all of them, each for its canonical text at least
(`parsed_iff_wellFormed`).

The limit of the parser bounds the frames around a tree together with the levels inside it.
So what is kept of a tree in the parser (`Parsed`) depends on the number of frames, and a
container that is closed has one frame less around it and one level more inside.  Every
move keeps this of all trees that a state holds (`holds_of_moves`).
-/

namespace Jstn

namespace Schema

/-! ## Well-formed trees -/

/-- Whether a node is an array or an object. -/
def isContainer (t : Schema) : Bool := t.isArray || t.isObject

/-- A way down a tree from its root, as the nodes it goes through. -/
inductive Path : Schema → List Schema → Prop
  | root {t : Schema} : Path t [t]
  | property {t : Schema} {p : String × Schema} {nodes : List Schema} :
      p ∈ t.properties → Path p.2 nodes → Path t (t :: nodes)
  | item {t child : Schema} {nodes : List Schema} :
      t.items = some child → Path child nodes → Path t (t :: nodes)

/-- A node with no other parts than its kind uses, and with names for its properties. -/
structure Regular (node : Schema) : Prop where
  properties_eq : node.kind ≠ .object → node.properties = []
  items_eq : node.kind ≠ .array → node.items = none
  names : ∀ p ∈ node.properties, IsName p.1

/-- A tree of regular nodes whose containers nest at most 128 deep. -/
structure WellFormed (t : Schema) : Prop where
  regular : ∀ nodes, Path t nodes → ∀ node ∈ nodes, node.Regular
  nests : ∀ nodes, Path t nodes → nodes.countP isContainer ≤ 128

theorem isContainer_iff {t : Schema} :
    t.isContainer = true ↔ t.kind = .array ∨ t.kind = .object := by
  simp [isContainer, isArray, isObject]

theorem exists_levels_eq {ps : List (String × Schema)} (h : ps ≠ []) :
    ∃ p ∈ ps, p.2.levels = levelsOfProperties ps := by
  induction ps with
  | nil => exact absurd rfl h
  | cons p ps ih =>
      rw [levelsOfProperties]
      rcases Nat.le_total (levelsOfProperties ps) p.2.levels with hle | hle
      · exact ⟨p, List.mem_cons_self, (Nat.max_eq_left hle).symm⟩
      · rw [Nat.max_eq_right hle]
        cases ps with
        | nil => exact ⟨p, List.mem_cons_self, Nat.le_antisymm hle (Nat.zero_le _)⟩
        | cons q ps =>
            obtain ⟨r, hr, hlevels⟩ := ih (List.cons_ne_nil q ps)
            exact ⟨r, List.mem_cons_of_mem _ hr, hlevels⟩

/-- Some way down a tree goes through all its levels. -/
theorem exists_path_levels (t : Schema) :
    ∃ nodes, Path t nodes ∧ nodes.countP isContainer = t.levels := by
  induction t with
  | node kind optional properties items ihproperties ihitems =>
      have hroot : Path ⟨kind, optional, properties, items⟩ [⟨kind, optional, properties, items⟩] :=
        .root
      cases kind with
      | array =>
          cases items with
          | none => exact ⟨_, hroot, rfl⟩
          | some t =>
              obtain ⟨nodes, hpath, hcount⟩ := ihitems t rfl
              refine ⟨_, .item rfl hpath, ?_⟩
              rw [List.countP_cons_of_pos rfl, hcount, levels, levelsOfItems]
      | object =>
          by_cases hnil : properties = []
          · subst hnil
            exact ⟨_, hroot, rfl⟩
          · obtain ⟨p, hp, hlevels⟩ := exists_levels_eq hnil
            obtain ⟨nodes, hpath, hcount⟩ := ihproperties p hp
            refine ⟨_, .property hp hpath, ?_⟩
            rw [List.countP_cons_of_pos rfl, hcount, hlevels, levels]
      | string | number | boolean | null | any => exact ⟨_, hroot, rfl⟩

/-- Where all parts are used only objects have properties. -/
theorem Trim.property {t : Schema} {p : String × Schema} (h : Trim t) (hp : p ∈ t.properties) :
    t.kind = .object ∧ Trim p.2 := by
  cases h with
  | @node kind _ _ _ hobject _ htrim _ =>
      refine ⟨Decidable.byContradiction fun hk => ?_, htrim p hp⟩
      have hnil := hobject hk
      subst hnil
      cases hp

/-- Where all parts are used only arrays have an item type. -/
theorem Trim.item {t child : Schema} (h : Trim t) (hi : t.items = some child) :
    t.kind = .array ∧ Trim child := by
  cases h with
  | @node kind _ _ _ _ harray _ htrim =>
      refine ⟨Decidable.byContradiction fun hk => ?_, htrim child hi⟩
      have hnone := harray hk
      subst hnone
      cases hi

theorem Named.property {t : Schema} {p : String × Schema} (h : Named t) (hk : t.kind = .object)
    (hp : p ∈ t.properties) : IsName p.1 ∧ Named p.2 := by
  cases h with
  | node hnames hnamed _ => exact ⟨hnames hk p hp, hnamed hk p hp⟩

theorem Named.item {t child : Schema} (h : Named t) (hk : t.kind = .array)
    (hi : t.items = some child) : Named child := by
  cases h with
  | node _ _ hnamed => exact hnamed hk child hi

/-- Where all parts are used no way down goes through more containers than there are
levels. -/
theorem countP_le_levels {t : Schema} {nodes : List Schema} (h : Path t nodes) (ht : Trim t) :
    nodes.countP isContainer ≤ t.levels := by
  have hcons : ∀ (node : Schema) (nodes : List Schema),
      (node :: nodes).countP isContainer ≤ nodes.countP isContainer + 1 := by
    intro node nodes
    rw [List.countP_cons]
    split <;> omega
  induction h with
  | @root t =>
      by_cases hc : t.isContainer = true
      · have hpos := levels_pos (isContainer_iff.mp hc)
        exact Nat.le_trans (hcons t []) hpos
      · rw [List.countP_cons_of_neg hc]
        exact Nat.zero_le _
  | @property t p nodes hp _ ih =>
      obtain ⟨hkind, htrim⟩ := ht.property hp
      have hlt := levels_property hkind hp
      have hle := ih htrim
      exact Nat.le_trans (hcons t nodes) (by omega)
  | @item t child nodes hchild _ ih =>
      obtain ⟨hkind, htrim⟩ := ht.item hchild
      have hlt := levels_items hkind hchild
      have hle := ih htrim
      exact Nat.le_trans (hcons t nodes) (by omega)

theorem Regular.of_trim {t : Schema} (ht : Trim t) (hn : Named t) : t.Regular := by
  refine ⟨?_, ?_, fun p hp => (hn.property (ht.property hp).1 hp).1⟩
  · cases ht with
    | node hobject _ _ _ => exact hobject
  · cases ht with
    | node _ harray _ _ => exact harray

theorem regular_of_trim {t : Schema} {nodes : List Schema} (h : Path t nodes) (ht : Trim t)
    (hn : Named t) : ∀ node ∈ nodes, node.Regular := by
  induction h with
  | root => exact List.forall_mem_singleton.mpr (.of_trim ht hn)
  | property hp _ ih =>
      obtain ⟨hkind, htrim⟩ := ht.property hp
      exact List.forall_mem_cons.mpr ⟨.of_trim ht hn, ih htrim (hn.property hkind hp).2⟩
  | item hchild _ ih =>
      obtain ⟨hkind, htrim⟩ := ht.item hchild
      exact List.forall_mem_cons.mpr ⟨.of_trim ht hn, ih htrim (hn.item hkind hchild)⟩

theorem trim_of_regular {t : Schema} (h : ∀ nodes, Path t nodes → ∀ node ∈ nodes, node.Regular) :
    t.Trim ∧ t.Named := by
  induction t with
  | node kind optional properties items ihproperties ihitems =>
      have hroot := h _ .root _ List.mem_cons_self
      have hproperties : ∀ p ∈ properties, p.2.Trim ∧ p.2.Named := by
        intro p hp
        refine ihproperties p hp fun nodes hpath node hnode => ?_
        exact h _ (.property hp hpath) node (List.mem_cons_of_mem _ hnode)
      have hitems : ∀ t, items = some t → t.Trim ∧ t.Named := by
        intro t ht
        refine ihitems t ht fun nodes hpath node hnode => ?_
        exact h _ (.item ht hpath) node (List.mem_cons_of_mem _ hnode)
      exact ⟨.node hroot.properties_eq hroot.items_eq (fun p hp => (hproperties p hp).1)
          (fun t ht => (hitems t ht).1),
        .node (fun _ => hroot.names) (fun _ p hp => (hproperties p hp).2)
          (fun _ t ht => (hitems t ht).2)⟩

/-- A tree is well formed if it is printable and all its parts are used. -/
theorem wellFormed_iff {t : Schema} : t.WellFormed ↔ t.Trim ∧ t.Printable := by
  constructor
  · rintro ⟨hregular, hnests⟩
    obtain ⟨htrim, hnamed⟩ := trim_of_regular hregular
    obtain ⟨nodes, hpath, hcount⟩ := exists_path_levels t
    exact ⟨htrim, hnamed, hcount ▸ hnests nodes hpath⟩
  · rintro ⟨htrim, hnamed, hlevels⟩
    refine ⟨fun nodes hpath => regular_of_trim hpath htrim hnamed, fun nodes hpath => ?_⟩
    exact Nat.le_trans (countP_le_levels hpath htrim) hlevels

end Schema

/-! ## Names -/

/-- The identifiers of a text are names. -/
theorem isName_of_mem_tokenize {source : String} {l : Lexeme} (h : l ∈ tokenize source)
    (hl : Parse.Is .identifier l) : Schema.IsName l.text := by
  obtain ⟨c, cs, offset, rfl⟩ := Scanner.exists_ofRun_of_mem h
  have htoken : tokenOf? c (cs.takeWhile (goesOn c)) = some .identifier := by
    rw [← Lexeme.token?_ofRun c _ offset]
    exact hl
  have htext : (Lexeme.ofRun c (cs.takeWhile (goesOn c)) offset).text
      = String.ofList (c :: cs.takeWhile (goesOn c)) := by
    rw [Lexeme.ofRun, htoken]
    rfl
  rw [htext]
  unfold tokenOf? at htoken
  split at htoken
  next => cases htoken
  next hblank =>
    split at htoken
    next => cases htoken
    next hbreak =>
      split at htoken
      next hword =>
        have hgoesOn : goesOn c = isWordPart := by
          rw [goesOn, if_neg hblank, if_neg hbreak, if_pos hword]
        refine ⟨c, cs.takeWhile (goesOn c), String.toList_ofList, hword, ?_, ?_⟩
        · rw [hgoesOn]
          exact List.all_eq_true.mp List.all_takeWhile
        · rw [String.toList_ofList]
          exact Token.map_toLower_ne_of_ofWord (Option.some.inj htoken)
      next =>
        unfold Token.ofPunctuation? at htoken
        split at htoken <;> cases htoken

namespace Parse

open State Schema

/-! ## What the parser keeps -/

/-- What the parser keeps of a tree inside `depth` frames. -/
structure Parsed (depth : Nat) (t : Schema) : Prop where
  trim : t.Trim
  named : t.Named
  ordered : t.Ordered
  fits : depth + t.levels ≤ 128

/-- What the parser keeps of the properties of an object inside `depth` frames. -/
structure ParsedProperties (depth : Nat) (ps : List (String × Schema)) : Prop where
  ascending : NameMap.Ascending ps
  parsed : ∀ p ∈ ps, IsName p.1 ∧ Parsed (depth + 1) p.2
  fits : depth < 128

/-- What the parser keeps of frames. -/
inductive ParsedFrames : List Frame → Prop
  | nil : ParsedFrames []
  | array {outer : List Frame} :
      ParsedFrames outer → outer.length < 128 → ParsedFrames (.array :: outer)
  | object {outer : List Frame} {done : List (String × Schema)} {name : String} :
      ParsedFrames outer → ParsedProperties outer.length done → IsName name →
      ParsedFrames (.object done name :: outer)

/-- What the parser keeps at a point inside `depth` frames. -/
def ParsedPoint (depth : Nat) : Point → Prop
  | .typeDue => True
  | .itemsDue => depth < 128
  | .declared t | .typed t => Parsed depth t
  | .propertyDue done => ParsedProperties depth done
  | .colonDue done name => ParsedProperties depth done ∧ IsName name

/-- What the parser keeps of all that a state holds. -/
structure Holds (s : State) : Prop where
  frames : ParsedFrames s.stack
  point : ParsedPoint s.stack.length s.point

theorem Parsed.ofKind {depth : Nat} {kind : Kind} (h : kind ≠ .object) (ha : kind ≠ .array)
    (hd : depth ≤ 128) : Parsed depth (.ofKind kind) := by
  refine ⟨.node (fun _ => rfl) (fun _ => rfl) nofun nofun, .node nofun nofun nofun,
    .ofKind kind, ?_⟩
  cases kind with
  | object => exact absurd rfl h
  | array => exact absurd rfl ha
  | string | number | boolean | null | any => exact hd

theorem Parsed.emptyArray {depth : Nat} (hd : depth < 128) : Parsed depth .emptyArray :=
  ⟨.node (fun _ => rfl) (fun _ => rfl) nofun nofun, .node nofun nofun nofun, .ofKind .array, hd⟩

theorem Parsed.array {depth : Nat} {t : Schema} (h : Parsed (depth + 1) t) :
    Parsed depth (.array t) where
  trim := .node (fun _ => rfl) (fun hk => absurd rfl hk) nofun
    (fun _ ht => by cases ht; exact h.trim)
  named := .node nofun nofun (fun _ _ ht => by cases ht; exact h.named)
  ordered := h.ordered.array
  fits := by
    have hfits := h.fits
    rw [Schema.array, levels, levelsOfItems]
    omega

theorem levelsOfProperties_le {ps : List (String × Schema)} {n : Nat}
    (h : ∀ p ∈ ps, p.2.levels ≤ n) : levelsOfProperties ps ≤ n := by
  induction ps with
  | nil => exact Nat.zero_le n
  | cons p ps ih =>
      obtain ⟨hp, hps⟩ := List.forall_mem_cons.mp h
      rw [levelsOfProperties]
      exact Nat.max_le.mpr ⟨hp, ih hps⟩

theorem ParsedProperties.object {depth : Nat} {ps : List (String × Schema)}
    (h : ParsedProperties depth ps) : Parsed depth { kind := .object, properties := ps } where
  trim := .node (fun hk => absurd rfl hk) (fun _ => rfl) (fun p hp => (h.parsed p hp).2.trim) nofun
  named := .node (fun _ p hp => (h.parsed p hp).1) (fun _ p hp => (h.parsed p hp).2.named) nofun
  ordered := .node h.ascending (fun p hp => (h.parsed p hp).2.ordered) nofun
  fits := by
    have hroom := h.fits
    have hlevels : levelsOfProperties ps ≤ 128 - (depth + 1) := by
      refine levelsOfProperties_le fun p hp => ?_
      have hfits := (h.parsed p hp).2.fits
      omega
    rw [levels]
    omega

theorem ParsedProperties.insert {depth : Nat} {ps : List (String × Schema)} {name : String}
    {t : Schema} (h : ParsedProperties depth ps) (hname : IsName name)
    (ht : Parsed (depth + 1) t) : ParsedProperties depth (NameMap.insert name t ps) where
  ascending := NameMap.ascending_insert name t h.ascending
  parsed := by
    intro p hp
    rcases NameMap.mem_insert hp with rfl | hp
    · exact ⟨hname, ht⟩
    · exact h.parsed p hp
  fits := h.fits

theorem Parsed.asOptional {depth : Nat} {t : Schema} (h : Parsed depth t) :
    Parsed depth t.asOptional := by
  obtain ⟨kind, optional, properties, items⟩ := t
  obtain ⟨htrim, hnamed, hordered, hfits⟩ := h
  refine ⟨?_, ?_, hordered.withOptional true, ?_⟩
  · cases htrim with
    | node hp hi hps hit => exact .node hp hi hps hit
  · cases hnamed with
    | node hn hps hit => exact .node hn hps hit
  · cases kind <;> exact hfits

theorem ParsedFrames.length_le {stack : List Frame} (h : ParsedFrames stack) :
    stack.length ≤ 128 := by
  cases h with
  | nil => exact Nat.zero_le _
  | array _ hroom => exact hroom
  | object _ hdone _ => exact hdone.fits

/-- The type at a point with a type is kept. -/
theorem ParsedPoint.type {depth : Nat} {point : Point} {t : Schema}
    (h : ParsedPoint depth point) (hp : point.type? = some t) : Parsed depth t := by
  cases point with
  | declared t' | typed t' =>
      cases hp
      exact h
  | typeDue | itemsDue | propertyDue _ | colonDue _ _ => cases hp

/-- The frames around a type that is due are kept. -/
theorem Holds.typeStack {s : State} {stack : List Frame} (h : Holds s)
    (hs : s.typeStack? = some stack) : ParsedFrames stack := by
  obtain ⟨outer, point⟩ := s
  cases point with
  | typeDue =>
      cases hs
      exact h.frames
  | itemsDue =>
      cases hs
      exact .array h.frames h.point
  | declared _ | typed _ | propertyDue _ | colonDue _ _ => cases hs

/-- Every move keeps what is kept of the trees, if identifiers are names. -/
theorem holds_of_moves {s s' : State} {l : Lexeme} (hm : Moves s l s')
    (hf : Fits (some 128) s l) (hname : Is .identifier l → IsName l.text) (h : Holds s) :
    Holds s' := by
  cases hm with
  | typeBreak _ | itemsBreak _ | propertyBreak _ | colonBreak _ => exact h
  | openArray hs hl =>
      refine ⟨h.typeStack hs, ?_⟩
      have hroom := hf (opens_of_is hl) 128 rfl
      rwa [depth_typeStack hs] at hroom
  | openObject hs hl =>
      have hroom := hf (opens_of_is hl) 128 rfl
      rw [depth_typeStack hs] at hroom
      exact ⟨h.typeStack hs, NameMap.ascending_nil, nofun, hroom⟩
  | keyword hs hl hk =>
      have hframes := h.typeStack hs
      refine ⟨hframes, Parsed.ofKind ?_ ?_ hframes.length_le⟩ <;>
        (rintro rfl; revert hk; rename_i token; cases token <;> nofun)
  | emptyArray hl => exact ⟨h.frames, .emptyArray h.point⟩
  | question hl => exact ⟨h.frames, Parsed.asOptional h.point⟩
  | typedBreak hp _ _ => exact ⟨h.frames, h.point.type hp⟩
  | closeArray hp hl =>
      have ht := h.point.type hp
      cases h.frames with
      | array houter hroom => exact ⟨houter, ht.array⟩
  | endProperty hp hl =>
      have ht := h.point.type hp
      cases h.frames with
      | object houter hdone hname => exact ⟨houter, hdone.insert hname ht⟩
  | closeTyped hp hl =>
      have ht := h.point.type hp
      cases h.frames with
      | object houter hdone hname => exact ⟨houter, (hdone.insert hname ht).object⟩
  | closeObject hl => exact ⟨h.frames, ParsedProperties.object h.point⟩
  | name hl => exact ⟨h.frames, h.point, hname hl⟩
  | colon hl => exact ⟨.object h.frames h.point.1 h.point.2, trivial⟩

/-- A run keeps what is kept of the trees. -/
theorem holds_of_run {s s' : State} {ls : List Lexeme}
    (hname : ∀ l ∈ ls, Is .identifier l → IsName l.text) (h : Holds s)
    (hr : run (some 128) s ls = .ok s') : Holds s' := by
  induction ls generalizing s with
  | nil =>
      cases hr
      exact h
  | cons l ls ih =>
      obtain ⟨hl, hls⟩ := List.forall_mem_cons.mp hname
      obtain ⟨s₁, hs, hrest⟩ := run_cons_eq_ok.mp hr
      rcases step_iff.mp hs with ⟨-, rfl⟩ | ⟨hm, hf⟩
      · exact ih hls h hrest
      · exact ih hls (holds_of_moves hm hf hl h) hrest

end Parse

/-- What is kept of a tree that parsing gives. -/
theorem parsed_of_parse {source : String} {t : Schema} (h : parse source = .ok t) :
    Parse.Parsed 0 t := by
  obtain ⟨s, hrun, hfinish⟩ := Parse.ofLexemes_eq_ok_iff.mp h
  have hstart : Parse.Holds .start := ⟨.nil, trivial⟩
  have hholds := Parse.holds_of_run (fun l hl => isName_of_mem_tokenize hl) hstart hrun
  obtain ⟨stack, point⟩ := s
  obtain ⟨rfl, hp⟩ := Parse.State.finish_eq_ok_iff.mp hfinish
  exact hholds.point.type hp

/-- A tree that parsing gives is the one that its canonical text gives. -/
theorem parse_canonical_of_parse {source : String} {t : Schema} (h : parse source = .ok t) :
    parse t.canonical = .ok t := by
  obtain ⟨htrim, hnamed, hordered, hfits⟩ := parsed_of_parse h
  rw [Nat.zero_add] at hfits
  have hback := Parse.readsBack_of_named .canonical hnamed hordered
  have hparse := Parse.parse_of_readsBack hback hfits
  rwa [Schema.strip_of_trim htrim] at hparse

/-- Parsing gives the well-formed trees, whose properties are maps, and no others, and it
gives each for its canonical text. -/
theorem parsed_iff_wellFormed (t : Schema) :
    ((∃ source, parse source = .ok t) ↔ t.Ordered ∧ t.WellFormed) ∧
      (parse t.canonical = .ok t ↔ t.Ordered ∧ t.WellFormed) := by
  have hparsed : ∀ source, parse source = .ok t → t.Ordered ∧ t.WellFormed := by
    intro source h
    obtain ⟨htrim, hnamed, hordered, hfits⟩ := parsed_of_parse h
    rw [Nat.zero_add] at hfits
    exact ⟨hordered, Schema.wellFormed_iff.mpr ⟨htrim, hnamed, hfits⟩⟩
  have hcanonical : t.Ordered ∧ t.WellFormed → parse t.canonical = .ok t := by
    rintro ⟨hordered, hwellFormed⟩
    obtain ⟨htrim, hprintable⟩ := Schema.wellFormed_iff.mp hwellFormed
    have hback : Parse.ReadsBack .canonical t :=
      Parse.readsBack_of_named .canonical hprintable.named hordered
    have hparse := Parse.parse_of_readsBack hback hprintable.levels_le
    rwa [Schema.strip_of_trim htrim] at hparse
  exact ⟨⟨fun ⟨source, h⟩ => hparsed source h, fun h => ⟨_, hcanonical h⟩⟩, hparsed _, hcanonical⟩

-- The name of a property may carry text that is read as another property.
example : parse (Schema.object [("a:any;b", .string)]).canonical =
    .ok (.object [("a", .any), ("b", .string)]) := by
  cbv

end Jstn
