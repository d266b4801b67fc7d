import Jstn.Proofs.Document.Settling
import Jstn.Proofs.Text.ByteOrder

/-!
# Entries settled by a walk

The entries of a container are settled one by one, if a walk settles the values in them.
What is found in an entry is found in the container (`found_item`, `found_member`), and a
walk that is stuck in an entry is stuck in the container (`stuck_item`, `stuck_member`).
Once all entries are passed the container is (`settles_moreItems`, `settles_moreMembers`),
unless an object lacks a property (`settles_closeObject`).
-/

namespace Jstn

open Json (Blanks Byte.isBlank Byte.quote Byte.comma Byte.colon Byte.closeBracket
  Byte.closeBrace Ends Item Member Skip Text Value moreItems moreMembers)

namespace Walk

variable {mode : Mode} {outer : List Frame} {t : Schema}

theorem breaks_of_refuses {v : Value} (h : refuses mode t = true) :
    Breaks mode t v .anyInStrict := by
  simp only [refuses, Bool.and_eq_true, decide_eq_true_eq] at h
  exact .any h.2 h.1

theorem not_conforms_of_refuses {v : Value} (h : refuses mode t = true) : ¬Conforms mode t v :=
  not_conforms_of_breaks (breaks_of_refuses h)

/-! ## Items -/

/-- An item that an array inside `depth` containers may have. -/
def ItemFits (mode : Mode) (depth : Nat) (t : Schema) (v : Value) : Prop :=
  ∃ node, t.items = some node ∧ Fits mode (depth + 1) node v

theorem fits_array {depth : Nat} {items : List Value} (ht : t.kind = .array)
    (hl : depth < maxOpen) (h : ∀ v ∈ items, ItemFits mode depth t v) :
    Fits mode depth t (.array items) := by
  constructor
  · refine (conforms_array_iff ht).mpr fun v hv => ?_
    obtain ⟨node, hnode, hfits⟩ := h v hv
    exact ⟨node, hnode, hfits.1⟩
  · intro n hn
    cases hn with
    | root _ _ => exact hl
    | item _ hi hv hn =>
        obtain ⟨node, hnode, hfits⟩ := h _ hv
        rw [hi] at hnode
        cases hnode
        have := hfits.2 _ hn
        omega

section

variable {node : Schema} {first more : List Value} {v : Value}

/-- What is found in an item is found in the array, if the items before it conform. -/
theorem found_item {place : Location} {violation : Violation} (ht : t.kind = .array)
    (hi : t.items = some node) (hfirst : ∀ u ∈ first, Conforms mode node u)
    (h : Found mode (.array (some node) first.length :: outer) node v place violation) :
    Found mode outer t (.array (first ++ v :: more)) place violation := by
  refine ⟨fun hv => h.not_conforms ?_, fun ho => ?_⟩
  · obtain ⟨node', hnode, hitem⟩ := (conforms_array_iff ht).mp hv v (by simp)
    rw [hi] at hnode
    cases hnode
    exact hitem
  · obtain ⟨inner, rfl, hbreach⟩ := h.first (ho.item hi)
    refine ⟨.index first.length :: inner, ?_, .item ht hi hfirst hbreach⟩
    rw [location_cons, List.append_assoc]
    rfl

end

/-- Why a walk may not get through an item of an array. -/
def ItemStuck (mode : Mode) (depth : Nat) (t : Schema) (v : Value) (x : List UInt8) : Prop :=
  ∃ node, t.items = some node ∧ Stuck mode (depth + 1) node v x

/-- A walk that is stuck in an item is stuck in the array. -/
theorem stuck_item {depth : Nat} {items : List Value} {v : Value} {x whole : List UInt8}
    (ht : t.kind = .array) (hv : v ∈ items) (hx : Utf8.Valid whole → Utf8.Valid x)
    (h : ItemStuck mode depth t v x) : Stuck mode depth t (.array items) whole := by
  obtain ⟨node, hi, h⟩ := h
  cases h with
  | undecodable h hn =>
      refine .undecodable (.item hv h) fun hall => hn ?_
      obtain ⟨node', hnode, hitem⟩ := (conforms_array_iff ht).mp hall v hv
      rw [hi] at hnode
      cases hnode
      exact hitem
  | notUtf8 h => exact .notUtf8 fun hw => h (hx hw)
  | tooDeep hn hl => exact .tooDeep (.item ht hi hv hn) (by omega)

/-- An item is settled as a value at the type of the items. -/
theorem settles_item {stuck : Prop} {task : Task} {first : List Value} {v : Value}
    {x rest : List UInt8} (more : List Value) (ht : t.kind = .array)
    (hs : ∀ p b, Byte.isBlank b = false → b ≠ Byte.closeBracket →
      step mode ⟨outer, task⟩ p b = beginItem mode outer t.items first.length p b)
    (hfirst : ∀ u ∈ first, ItemFits mode outer.length t u) (hv : Text v x)
    (hd : Settled mode v x) (hstuck : ItemStuck mode outer.length t v x → stuck) (hr : Ends rest) :
    Settles mode (ItemFits mode outer.length t v)
      (Found mode outer t (.array (first ++ v :: more))) stuck
      ⟨outer, task⟩ x rest ⟨.array t.items first.length :: outer, .ended⟩ := by
  obtain ⟨b, xs, rfl, hb, hc⟩ := Skip.text_head hv
  cases hi : t.items with
  | none =>
      obtain rfl : first = [] := by
        refine List.eq_nil_iff_forall_not_mem.mpr fun u hu => ?_
        obtain ⟨node, hnode, -⟩ := hfirst u hu
        rw [hi] at hnode
        cases hnode
      have hskip : ∀ p, step mode ⟨outer, task⟩ p b
          = step mode ⟨.array none 0 :: outer, .skip .untypedItem .start⟩ p b := by
        intro p
        rw [hs p b hb hc, hi]
        rfl
      refine .congr hskip fun p => ?_
      rw [run_skip (Skip.run_text hv hr p)]
      exact .breaks (found_here (.untypedItem ht hi))
  | some node =>
      have hconforms : ∀ u ∈ first, Conforms mode node u := by
        intro u hu
        obtain ⟨node', hnode, hfits⟩ := hfirst u hu
        rw [hi] at hnode
        cases hnode
        exact hfits.1
      rw [hi] at hs
      cases hm : refuses mode node with
      | true =>
          have hbreach : ∀ p, step mode ⟨outer, task⟩ p b
              = .breach ⟨location (.array (some node) first.length :: outer), .anyInStrict,
                  endingAround (.array (some node) first.length :: outer)⟩ false := by
            intro p
            rw [hs p b hb hc]
            simp only [beginItem, hm, if_true]
          exact .breach hbreach (found_item ht hi hconforms (found_here (breaks_of_refuses hm)))
      | false =>
          have hbegin : ∀ p, step mode ⟨outer, task⟩ p b
              = step mode ⟨.array (some node) first.length :: outer, .value node⟩ p b := by
            intro p
            rw [hs p b hb hc]
            simp only [beginItem, hm, step, hb, Bool.false_eq_true, if_false]
          have hvalue := hd (.array (some node) first.length :: outer) node rest hr hm
          exact .congr hbegin (hvalue.imp (fun h => ⟨node, hi, h⟩)
            (fun h => found_item ht hi hconforms h) (fun h => hstuck ⟨node, hi, h⟩))

/-- The items after others, up to the end of the array. -/
theorem settles_moreItems {stuck : Prop} {first : List Value} {index : Nat} {more : List Item}
    {w : List UInt8} (ht : t.kind = .array) (hl : outer.length < maxOpen)
    (hindex : index + 1 = first.length)
    (hfirst : ∀ u ∈ first, ItemFits mode outer.length t u)
    (hb : ∀ i ∈ more, Blanks i.before ∧ Blanks i.after)
    (hv : ∀ i ∈ more, Text i.value i.text) (hd : ∀ i ∈ more, Settled mode i.value i.text)
    (hstuck : ∀ i ∈ more, ItemStuck mode outer.length t i.value i.text → stuck)
    (hw : Blanks w) (rest : List UInt8) :
    Settles mode (Fits mode outer.length t (.array (first ++ more.map Item.value)))
      (Found mode outer t (.array (first ++ more.map Item.value))) stuck
      ⟨.array t.items index :: outer, .ended⟩ (w ++ (moreItems more ++ [Byte.closeBracket])) rest
      ⟨outer, .ended⟩ := by
  induction more generalizing first index w with
  | nil =>
      rw [List.map_nil, List.append_nil]
      exact .blanks rfl hw (.cons (fun _ => rfl) (.refl (fits_array ht hl hfirst)))
  | cons i more ih =>
      obtain ⟨⟨hbefore, hafter⟩, hb⟩ := List.forall_mem_cons.mp hb
      obtain ⟨hvi, hv⟩ := List.forall_mem_cons.mp hv
      obtain ⟨hdi, hd⟩ := List.forall_mem_cons.mp hd
      obtain ⟨hstucki, hstuck⟩ := List.forall_mem_cons.mp hstuck
      have hcomma : ∀ p, step mode ⟨.array t.items index :: outer, .ended⟩ p Byte.comma
          = .more ⟨outer, .nextItem t.items first.length⟩ := by
        intro p
        rw [← hindex]
        rfl
      have hends : Ends (i.after ++ (moreItems more ++ [Byte.closeBracket])) :=
        Json.ends_after_items hafter more []
      have hstep : ∀ p b, Byte.isBlank b = false → b ≠ Byte.closeBracket →
          step mode ⟨outer, .nextItem t.items first.length⟩ p b
            = beginItem mode outer t.items first.length p b := by
        intro p b hblank hc
        simp only [step, hblank, Bool.false_eq_true, if_false]
        exact if_neg hc
      have hitem := settles_item (more.map Item.value) ht hstep hfirst hvi hdi hstucki
        (Json.ends_append hends (by simp) rest)
      simp only [Json.moreItems_cons, Item.bytes, List.cons_append, List.append_assoc,
        List.map_cons]
      refine .blanks rfl hw (.cons hcomma (.blanks rfl hbefore (hitem.append fun hfits => ?_)))
      have hread : ∀ u ∈ first ++ [i.value], ItemFits mode outer.length t u :=
        List.forall_mem_append.mpr ⟨hfirst, List.forall_mem_singleton.mpr hfits⟩
      have hlength : first.length + 1 = (first ++ [i.value]).length := by simp
      have hmore := ih hlength hread hb hv hd hstuck hafter
      rwa [List.append_assoc] at hmore

/-! ## Members -/

/-- A member that an object inside `depth` containers may have. -/
def MemberFits (mode : Mode) (depth : Nat) (properties : List (String × Schema))
    (e : Option String × Value) : Prop :=
  ∃ name node, e.1 = some name ∧ declared? mode properties name = some node ∧
    Fits mode (depth + 1) node e.2

theorem MemberFits.conforms {depth : Nat} {properties : List (String × Schema)}
    {e : Option String × Value} (h : MemberFits mode depth properties e) :
    MemberConforms mode properties e := by
  obtain ⟨name, node, hname, hnode, hfits⟩ := h
  exact ⟨name, node, hname, hnode, hfits.1⟩

theorem fits_object {depth : Nat} {members : List (Option String × Value)}
    (ht : t.kind = .object) (hl : depth < maxOpen)
    (h : ∀ e ∈ members, MemberFits mode depth t.properties e)
    (hrequired : ∀ q ∈ t.properties, q.2.optional = false → ∃ e ∈ members, e.1 = some q.1) :
    Fits mode depth t (.object members) := by
  constructor
  · exact (conforms_object_iff ht).mpr ⟨fun e he => (h e he).conforms, hrequired⟩
  · intro n hn
    cases hn with
    | root _ _ => exact hl
    | member _ hp hv hn =>
        obtain ⟨name, node, hname, hnode, hfits⟩ := h _ hv
        cases hname
        rw [declared?_of_some mode hp] at hnode
        cases hnode
        have := hfits.2 _ hn
        omega

/-- An undeclared property that may occur is read at a node that takes every value. -/
theorem declared?_cases {properties : List (String × Schema)} {name : String} {node : Schema}
    (h : declared? mode properties name = some node) :
    NameMap.find? name properties = some node ∨ node = .any ∧ mode = .lenient := by
  unfold declared? at h
  split at h
  next hf =>
    cases h
    exact Or.inl hf
  next =>
    cases h
    exact Or.inr ⟨rfl, rfl⟩
  next => cases h

section

variable {node : Schema} {first more : List (Option String × Value)} {name : String} {v : Value}
  {seen : List String}

theorem conforms_of_member {members : List (Option String × Value)} (ht : t.kind = .object)
    (hnode : declared? mode t.properties name = some node)
    (hv : Conforms mode t (.object members)) (hm : (some name, v) ∈ members) :
    Conforms mode node v := by
  obtain ⟨name', node', hname, hnode', hmember⟩ := ((conforms_object_iff ht).mp hv).1 _ hm
  cases hname
  rw [hnode] at hnode'
  cases hnode'
  exact hmember

/-- What is found in a member is found in the object, if the members before it conform. -/
theorem found_member {place : Location} {violation : Violation} (ht : t.kind = .object)
    (hnode : declared? mode t.properties name = some node)
    (hfirst : ∀ e ∈ first, MemberConforms mode t.properties e)
    (h : Found mode (.object t.properties seen name :: outer) node v place violation) :
    Found mode outer t (.object (first ++ (some name, v) :: more)) place violation := by
  refine ⟨fun hv => h.not_conforms (conforms_of_member ht hnode hv (by simp)), fun ho => ?_⟩
  rcases declared?_cases hnode with hp | ⟨rfl, rfl⟩
  · obtain ⟨inner, rfl, hbreach⟩ := h.first (ho.property (NameMap.mem_of_find? hp))
    refine ⟨.key name :: inner, ?_, .member ht hfirst hp hbreach⟩
    rw [location_cons, List.append_assoc]
    rfl
  · exact absurd (.any rfl rfl) h.not_conforms

end

/-- Why a walk may not get through a member of an object. -/
def MemberStuck (mode : Mode) (depth : Nat) (properties : List (String × Schema)) (m : Member) :
    Prop :=
  m.key = none ∨ ∃ name node, m.key = some name ∧ declared? mode properties name = some node ∧
    Stuck mode (depth + 1) node m.item.value m.item.text

/-- A walk that is stuck in a member is stuck in the object. -/
theorem stuck_member {depth : Nat} {members : List (Option String × Value)} {m : Member}
    {whole : List UInt8} (ht : t.kind = .object) (hm : m.entry ∈ members)
    (hx : Utf8.Valid whole → Utf8.Valid m.item.text)
    (h : MemberStuck mode depth t.properties m) : Stuck mode depth t (.object members) whole := by
  rcases h with hkey | ⟨name, node, hkey, hnode, h⟩
  · rw [Member.entry, hkey] at hm
    refine .undecodable (.key hm) fun hall => ?_
    obtain ⟨name, node, hname, -⟩ := ((conforms_object_iff ht).mp hall).1 _ hm
    cases hname
  · rw [Member.entry, hkey] at hm
    cases h with
    | undecodable h hn =>
        exact .undecodable (.member hm h) fun hall => hn (conforms_of_member ht hnode hall hm)
    | notUtf8 h => exact .notUtf8 fun hw => h (hx hw)
    | tooDeep hn hl =>
        rcases declared?_cases hnode with hp | ⟨rfl, -⟩
        · exact .tooDeep (.member ht hp hm hn) (by omega)
        · exact absurd hn (not_enters (by rintro (h | h) <;> cases h))

theorem declared?_eq_none {properties : List (String × Schema)} {name : String}
    (h : declared? mode properties name = none) :
    mode = .strict ∧ NameMap.find? name properties = none := by
  unfold declared? at h
  split at h
  next => cases h
  next => cases h
  next hf => exact ⟨rfl, hf⟩

/-- A key leads to the colon after it, unless it stands for no text or may not occur. -/
theorem settles_key {passed stuck : Prop} {broken : Location → Violation → Prop}
    {properties : List (String × Schema)} {seen : List String} {body x rest : List UInt8}
    {key : Option String} {s' : State} (hd : Json.Literal.Denotes body key)
    (hs : key = none → stuck)
    (hb : ∀ name, key = some name → mode = .strict → NameMap.find? name properties = none →
      broken (location outer) (.undeclared name))
    (h : ∀ name node, key = some name → declared? mode properties name = some node →
      Settles mode passed broken stuck ⟨outer, .colon properties seen name node⟩ x rest s') :
    Settles mode passed broken stuck ⟨outer, .key properties seen .start⟩
      (body ++ Byte.quote :: x) rest s' := by
  intro p
  rw [run_key, List.append_assoc, List.cons_append, Json.Position.afterAll_append]
  cases key with
  | none =>
      obtain ⟨⟨fault, q⟩, he⟩ := Json.Literal.read_of_denotes_none hd p (x ++ rest)
      rw [he]
      exact .sticks (hs rfl)
  | some name =>
      rw [Json.Literal.read_of_denotes_some hd, goOn, goOnKey]
      cases hnode : declared? mode properties name with
      | none =>
          obtain ⟨hm, hf⟩ := declared?_eq_none hnode
          exact .breaks (hb name rfl hm hf)
      | some node => exact h name node rfl hnode _

/-- The value of a member is settled at the node of its property. -/
theorem settles_colon {seen : List String} {name : String} {node : Schema} {i : Item}
    {w rest : List UInt8} (hw : Blanks w) (hb : Blanks i.before)
    (hd : Settled mode i.value i.text) (hr : Ends rest) :
    Settles mode (Fits mode (outer.length + 1) node i.value)
      (Found mode (.object t.properties seen name :: outer) node i.value)
      (Stuck mode (outer.length + 1) node i.value i.text)
      ⟨outer, .colon t.properties seen name node⟩ (w ++ Byte.colon :: (i.before ++ i.text)) rest
      ⟨.object t.properties seen name :: outer, .ended⟩ := by
  refine .blanks rfl hw ?_
  have hblank : Byte.isBlank Byte.colon = false := rfl
  cases hm : refuses mode node with
  | true =>
      have hbreach : ∀ p, step mode ⟨outer, .colon t.properties seen name node⟩ p Byte.colon
          = .breach ⟨location (.object t.properties seen name :: outer), .anyInStrict,
              endingAround (.object t.properties seen name :: outer)⟩ true := by
        intro p
        simp only [step, hblank, hm, Bool.false_eq_true, if_false, if_true]
      exact .breach hbreach (found_here (breaks_of_refuses hm))
  | false =>
      have hstep : ∀ p, step mode ⟨outer, .colon t.properties seen name node⟩ p Byte.colon
          = .more ⟨.object t.properties seen name :: outer, .value node⟩ := by
        intro p
        simp only [step, hblank, hm, Bool.false_eq_true, if_false, if_true]
      exact .cons hstep (.blanks rfl hb
        (hd (.object t.properties seen name :: outer) node rest hr hm))

/-- A member is settled by its key or by its value. -/
theorem settles_member {stuck : Prop} {task : Task} {first : List (Option String × Value)}
    {m : Member} {seen : List String} {rest : List UInt8} (more : List (Option String × Value))
    (ht : t.kind = .object) (hblank : task.takesBlanks = true)
    (hs : ∀ p, step mode ⟨outer, task⟩ p Byte.quote
      = .more ⟨outer, .key t.properties seen .start⟩)
    (hfirst : ∀ e ∈ first, MemberFits mode outer.length t.properties e)
    (hk : Blanks m.before ∧ Blanks m.after ∧ Json.Literal.Denotes m.body m.key)
    (hb : Blanks m.item.before) (hd : Settled mode m.item.value m.item.text)
    (hstuck : MemberStuck mode outer.length t.properties m → stuck) (hr : Ends rest) :
    Settles mode (MemberFits mode outer.length t.properties m.entry)
      (Found mode outer t (.object (first ++ m.entry :: more))) stuck
      ⟨outer, task⟩
      (m.before ++ Byte.quote ::
        (m.body ++ Byte.quote :: (m.after ++ Byte.colon :: (m.item.before ++ m.item.text)))) rest
      ⟨.object t.properties seen (m.key.getD "") :: outer, .ended⟩ := by
  obtain ⟨hbefore, hafter, hdenotes⟩ := hk
  have hconforms : ∀ e ∈ first, MemberConforms mode t.properties e :=
    fun e he => (hfirst e he).conforms
  have hentry : ∀ key, m.key = key → m.entry = (key, m.item.value) := by
    rintro _ rfl
    rfl
  refine .blanks hblank hbefore (.cons hs (settles_key hdenotes ?_ ?_ ?_))
  · exact fun hkey => hstuck (Or.inl hkey)
  · intro name hkey hstrict hf
    rw [hentry _ hkey]
    exact found_here (.undeclared ht hstrict hconforms hf)
  · intro name node hkey hnode
    rw [hentry _ hkey, hkey]
    exact .imp (settles_colon hafter hb hd hr)
      (fun h => ⟨name, node, rfl, hnode, h⟩) (fun h => found_member ht hnode hconforms h)
      (fun h => hstuck (Or.inr ⟨name, node, hkey, hnode, h⟩))

/-! ## The end of an object -/

theorem missing?_eq_none {properties : List (String × Schema)} {seen : List String} :
    missing? properties seen = none ↔
      ∀ q ∈ properties, q.2.optional = false → q.1 ∈ seen := by
  simp [missing?]

/-- The name that is missed first has the smallest bytes of all that are. -/
theorem breaks_of_missing? {members : List (Option String × Value)} {seen : List String}
    {name : String} (ht : t.kind = .object) (ho : t.Ordered)
    (hmembers : ∀ e ∈ members, MemberConforms mode t.properties e)
    (hseen : ∀ other, other ∈ seen ↔ ∃ e ∈ members, e.1 = some other)
    (h : missing? t.properties seen = some name) :
    Breaks mode t (.object members) (.missing name) := by
  rw [missing?, Option.map_eq_some_iff] at h
  obtain ⟨p, hfind, rfl⟩ := h
  obtain ⟨hp, before, after, hsplit, hbefore⟩ := List.find?_eq_some_iff_append.mp hfind
  have hunseen : ∀ q : String × Schema, q.1 ∉ seen ↔ ∀ e ∈ members, e.1 ≠ some q.1 := by
    intro q
    rw [hseen, not_exists]
    exact forall_congr' fun _ => not_and
  simp only [Bool.and_eq_true, Bool.not_eq_true', List.contains_eq_mem, decide_eq_false_iff_not]
    at hp
  have hmem : p ∈ t.properties := by
    rw [hsplit]
    simp
  refine .missing ht hmembers hmem hp.1 ((hunseen p).mp hp.2) fun q hq hopt hnone => ?_
  rw [Utf8.encode_le_iff]
  have horder := ho.ascending
  rw [NameMap.Ascending, hsplit, List.pairwise_append, List.pairwise_cons] at horder
  rw [hsplit, List.mem_append, List.mem_cons] at hq
  rcases hq with hq | rfl | hq
  · have hfound := hbefore q hq
    simp [hopt, (hunseen q).mpr hnone] at hfound
  · exact String.le_refl _
  · exact String.not_lt.mp (String.lt_asymm (horder.2.1.1 q hq))

/-- The brace that closes an object asks for the required properties. -/
theorem settles_closeObject {stuck : Prop} {outer' : List Frame} {task : Task}
    {members : List (Option String × Value)} {seen : List String} {w rest : List UInt8}
    (ht : t.kind = .object) (hl : outer.length < maxOpen)
    (hmembers : ∀ e ∈ members, MemberFits mode outer.length t.properties e)
    (hseen : ∀ other, other ∈ seen ↔ ∃ e ∈ members, e.1 = some other)
    (hblank : task.takesBlanks = true)
    (hs : ∀ p, step mode ⟨outer', task⟩ p Byte.closeBrace = closeObject outer t.properties seen)
    (hw : Blanks w) :
    Settles mode (Fits mode outer.length t (.object members))
      (Found mode outer t (.object members)) stuck
      ⟨outer', task⟩ (w ++ [Byte.closeBrace]) rest ⟨outer, .ended⟩ := by
  refine .blanks hblank hw ?_
  cases hmissing : missing? t.properties seen with
  | none =>
      have hstep : ∀ p, step mode ⟨outer', task⟩ p Byte.closeBrace = .more ⟨outer, .ended⟩ := by
        intro p
        rw [hs, closeObject, hmissing]
      refine .cons hstep (.refl (fits_object ht hl hmembers fun q hq hopt => ?_))
      exact (hseen q.1).mp (missing?_eq_none.mp hmissing q hq hopt)
  | some name =>
      have hbreach : ∀ p, step mode ⟨outer', task⟩ p Byte.closeBrace
          = .breach ⟨location outer, .missing name, .container .object⟩ false := by
        intro p
        rw [hs, closeObject, hmissing]
      have hconforms : ∀ e ∈ members, MemberConforms mode t.properties e :=
        fun e he => (hmembers e he).conforms
      refine .breach hbreach ⟨fun hv => ?_, fun ho =>
        ⟨[], (List.append_nil _).symm, .here (breaks_of_missing? ht ho hconforms hseen hmissing)⟩⟩
      have hall : missing? t.properties seen = none := missing?_eq_none.mpr fun q hq hopt =>
        (hseen q.1).mpr (((conforms_object_iff ht).mp hv).2 q hq hopt)
      rw [hmissing] at hall
      cases hall

/-- The names seen after a member are those before it and its own. -/
theorem mem_seen_append {first : List (Option String × Value)} {seen : List String} {m : Member}
    {depth : Nat} {properties : List (String × Schema)}
    (hseen : ∀ other, other ∈ seen ↔ ∃ e ∈ first, e.1 = some other)
    (hm : MemberFits mode depth properties m.entry) (other : String) :
    other ∈ m.key.getD "" :: seen ↔ ∃ e ∈ first ++ [m.entry], e.1 = some other := by
  obtain ⟨name, -, hkey, -⟩ := hm
  have hname : m.key = some name := hkey
  rw [List.mem_cons, hseen, hname, Option.getD_some]
  constructor
  · rintro (rfl | ⟨e, he, heq⟩)
    · exact ⟨m.entry, by simp, hkey⟩
    · exact ⟨e, List.mem_append_left _ he, heq⟩
  · rintro ⟨e, he, heq⟩
    rcases List.mem_append.mp he with he | he
    · exact Or.inr ⟨e, he, heq⟩
    · obtain rfl := List.mem_singleton.mp he
      exact Or.inl (Option.some.inj (heq.symm.trans hkey))

/-- The members after others, up to the end of the object. -/
theorem settles_moreMembers {stuck : Prop} {first : List (Option String × Value)}
    {seen : List String} {name : String} {more : List Member} {w : List UInt8}
    (ht : t.kind = .object) (hl : outer.length < maxOpen)
    (hfirst : ∀ e ∈ first, MemberFits mode outer.length t.properties e)
    (hseen : ∀ other, other ∈ name :: seen ↔ ∃ e ∈ first, e.1 = some other)
    (hk : ∀ m ∈ more, Blanks m.before ∧ Blanks m.after ∧ Json.Literal.Denotes m.body m.key)
    (hb : ∀ m ∈ more, Blanks m.item.before ∧ Blanks m.item.after)
    (hd : ∀ m ∈ more, Settled mode m.item.value m.item.text)
    (hstuck : ∀ m ∈ more, MemberStuck mode outer.length t.properties m → stuck)
    (hw : Blanks w) (rest : List UInt8) :
    Settles mode (Fits mode outer.length t (.object (first ++ more.map Member.entry)))
      (Found mode outer t (.object (first ++ more.map Member.entry))) stuck
      ⟨.object t.properties seen name :: outer, .ended⟩
      (w ++ (moreMembers more ++ [Byte.closeBrace])) rest ⟨outer, .ended⟩ := by
  induction more generalizing first seen name w with
  | nil =>
      rw [List.map_nil, List.append_nil]
      exact settles_closeObject ht hl hfirst hseen rfl (fun _ => rfl) hw
  | cons m more ih =>
      obtain ⟨hkm, hk⟩ := List.forall_mem_cons.mp hk
      obtain ⟨⟨hbefore, hafter⟩, hb⟩ := List.forall_mem_cons.mp hb
      obtain ⟨hdm, hd⟩ := List.forall_mem_cons.mp hd
      obtain ⟨hstuckm, hstuck⟩ := List.forall_mem_cons.mp hstuck
      have hcomma : ∀ p, step mode ⟨.object t.properties seen name :: outer, .ended⟩ p Byte.comma
          = .more ⟨outer, .nextKey t.properties (name :: seen)⟩ := by
        intro p
        rfl
      have hquote : ∀ p, step mode ⟨outer, .nextKey t.properties (name :: seen)⟩ p Byte.quote
          = .more ⟨outer, .key t.properties (name :: seen) .start⟩ := by
        intro p
        rfl
      have hends : Ends (m.item.after ++ (moreMembers more ++ [Byte.closeBrace])) :=
        Json.ends_after_members hafter more []
      have hmember := settles_member (more.map Member.entry) ht rfl hquote hfirst hkm hbefore
        hdm hstuckm (Json.ends_append hends (by simp) rest)
      have hmore : MemberFits mode outer.length t.properties m.entry →
          Settles mode
            (Fits mode outer.length t (.object (first ++ m.entry :: more.map Member.entry)))
            (Found mode outer t (.object (first ++ m.entry :: more.map Member.entry))) stuck
            ⟨.object t.properties (name :: seen) (m.key.getD "") :: outer, .ended⟩
            (m.item.after ++ (moreMembers more ++ [Byte.closeBrace])) rest ⟨outer, .ended⟩ := by
        intro hfits
        have hread : ∀ e ∈ first ++ [m.entry], MemberFits mode outer.length t.properties e :=
          List.forall_mem_append.mpr ⟨hfirst, List.forall_mem_singleton.mpr hfits⟩
        have h := ih hread (mem_seen_append hseen hfits) hk hb hd hstuck hafter
        rwa [List.append_assoc] at h
      have hall := Settles.blanks rfl hw (.cons hcomma (hmember.append hmore))
      simp only [List.append_assoc, List.cons_append] at hall
      simp only [Json.moreMembers_cons, Member.bytes, Json.Literal.quoted, Item.bytes,
        List.cons_append, List.nil_append, List.append_assoc, List.map_cons]
      exact hall

end Walk

end Jstn
