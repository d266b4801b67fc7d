import Jstn.Proofs.Document.RootEnd
import Jstn.Proofs.Document.Texts
import Jstn.Proofs.Json.Writing
import Jstn.Proofs.Parse.WellFormed

/-!
# Schemas that can be used

A schema is *usable* if it accepts some document that is not blank.  Every value that
conforms to it nests at least as deep as its required properties do (`Schema.demand`), and
one value nests no deeper (`exists_sample`).  A walk follows 127 levels, so the usable
schemas are those that demand no more (`exists_document_iff`).

Parsing accepts schemas that demand 128 levels, and these are not usable
(`parse_nestedObjects`).
-/

namespace Jstn

open Json (Blanks Byte.colon Byte.quote Byte.zero Item Member Text Value moreMembers)

/-! ## What every value has to have -/

namespace Schema

mutual

/-- How deep the containers nest that every value of a tree has. -/
def demand : Schema → Nat
  | ⟨.array, _, _, _⟩ => 1
  | ⟨.object, _, properties, _⟩ => demandOfProperties properties + 1
  | _ => 0

/-- How deep the containers nest that every value has of each required property. -/
def demandOfProperties : List (String × Schema) → Nat
  | [] => 0
  | (_, t) :: ps => max (if t.optional then 0 else demand t) (demandOfProperties ps)

end

variable {t : Schema}

theorem demand_array (h : t.kind = .array) : t.demand = 1 := by
  obtain ⟨kind, optional, properties, items⟩ := t
  cases h
  rw [demand]

theorem demand_object (h : t.kind = .object) :
    t.demand = demandOfProperties t.properties + 1 := by
  obtain ⟨kind, optional, properties, items⟩ := t
  cases h
  rw [demand]

theorem container_of_demand (h : 0 < t.demand) : t.kind = .array ∨ t.kind = .object := by
  obtain ⟨kind, optional, properties, items⟩ := t
  cases kind with
  | array => exact Or.inl rfl
  | object => exact Or.inr rfl
  | string | number | boolean | null | any => simp [demand] at h

theorem demand_le_of_mem {ps : List (String × Schema)} {p : String × Schema} (h : p ∈ ps)
    (ho : p.2.optional = false) : p.2.demand ≤ demandOfProperties ps := by
  induction ps with
  | nil => cases h
  | cons q ps ih =>
      rw [demandOfProperties]
      rcases List.mem_cons.mp h with rfl | h
      · rw [ho]
        exact Nat.le_max_left ..
      · exact Nat.le_trans (ih h) (Nat.le_max_right ..)

/-- Some required property demands as much as all of them. -/
theorem exists_demand {ps : List (String × Schema)} (h : 0 < demandOfProperties ps) :
    ∃ p ∈ ps, p.2.optional = false ∧ p.2.demand = demandOfProperties ps := by
  induction ps with
  | nil => exact absurd h (Nat.lt_irrefl 0)
  | cons q ps ih =>
      obtain ⟨name, t⟩ := q
      rw [demandOfProperties] at h ⊢
      rcases Nat.le_total (if t.optional then 0 else t.demand) (demandOfProperties ps) with
        hle | hle
      · rw [Nat.max_eq_right hle] at h ⊢
        obtain ⟨p, hp, hopt, heq⟩ := ih h
        exact ⟨p, List.mem_cons_of_mem _ hp, hopt, heq⟩
      · rw [Nat.max_eq_left hle] at h ⊢
        cases hopt : t.optional with
        | true => simp [hopt] at h
        | false => exact ⟨(name, t), List.mem_cons_self, hopt, by simp⟩

end Schema

/-- A value that conforms makes a walk enter as many containers as are demanded. -/
theorem enters_demand {mode : Mode} {t : Schema} {v : Value} (ho : t.Ordered)
    (hv : Conforms mode t v) (hd : 0 < t.demand) : Enters t v t.demand := by
  induction t generalizing v with
  | node kind optional properties items ihproperties _ =>
      have hkind := Schema.container_of_demand hd
      have hsame := kind_of_conforms hkind hv
      have hroot : Enters ⟨kind, optional, properties, items⟩ v 1 := by
        refine .root hkind ?_
        rw [hsame]
        exact hkind
      rcases hkind with hk | hk
      · rw [Schema.demand_array hk]
        exact hroot
      · rw [Schema.demand_object hk]
        rcases Nat.eq_zero_or_pos (Schema.demandOfProperties properties) with hzero | hpos
        · rw [hzero]
          exact hroot
        · obtain ⟨p, hp, hopt, heq⟩ := Schema.exists_demand hpos
          cases v with
          | object members =>
              obtain ⟨hmembers, hrequired⟩ := (conforms_object_iff hk).mp hv
              obtain ⟨⟨key, u⟩, he, hkey⟩ := hrequired p hp hopt
              obtain rfl : key = some p.1 := hkey
              obtain ⟨name, node, hname, hnode, hu⟩ := hmembers _ he
              cases hname
              have hfind := NameMap.find?_of_mem ho.ascending hp
              rw [declared?_of_some mode hfind] at hnode
              cases hnode
              rw [← heq] at hpos ⊢
              exact .member hk hfind he (ihproperties p hp (ho.property hp) hu hpos)
          | null | boolean _ | number _ | string _ | array _ =>
              rw [hk] at hsame
              cases hsame

/-! ## A value for every tree -/

/-- A text of a value that conforms and enters no more containers than are demanded. -/
structure Sample (t : Schema) (v : Value) (x : List UInt8) : Prop where
  text : Text v x
  valid : Utf8.Valid x
  decodable : ¬v.Undecodable
  conforms : Conforms .lenient t v
  shallow : ∀ n, Enters t v n → n ≤ t.demand

/-- A member without blanks. -/
def bareMember (name : String) (v : Value) (x : List UInt8) : Member :=
  ⟨[], some name, Json.Literal.encodeBody name, [], ⟨[], v, x, []⟩⟩

/-- A sample of a required property. -/
def SampleMember (ps : List (String × Schema)) (m : Member) : Prop :=
  ∃ p ∈ ps, ∃ v x, m = bareMember p.1 v x ∧ p.2.optional = false ∧ Sample p.2 v x

namespace SampleMember

variable {ps : List (String × Schema)} {m : Member}

theorem blanks (h : SampleMember ps m) :
    (Blanks m.before ∧ Blanks m.after ∧ Json.Literal.Denotes m.body m.key) ∧
      Blanks m.item.before ∧ Blanks m.item.after := by
  obtain ⟨p, -, v, x, rfl, -, -⟩ := h
  exact ⟨⟨nofun, nofun, Json.Literal.denotes_encodeBody p.1⟩, nofun, nofun⟩

theorem text (h : SampleMember ps m) : Text m.item.value m.item.text := by
  obtain ⟨p, -, v, x, rfl, -, hsample⟩ := h
  exact hsample.text

theorem valid (h : SampleMember ps m) : Utf8.Valid m.bytes := by
  obtain ⟨p, -, v, x, rfl, -, hsample⟩ := h
  have hquote : Utf8.Valid [Byte.quote] := Utf8.valid_ascii (by decide)
  have hcolon : Utf8.Valid [Byte.colon] := Utf8.valid_ascii (by decide)
  have hbody : Utf8.Valid (Json.Literal.encodeBody p.1) := ⟨_, rfl⟩
  have h := ((hquote.append hbody).append (hquote.append hcolon)).append hsample.valid
  simpa [bareMember, Member.bytes, Json.Literal.quoted, Item.bytes] using h

theorem decodable (h : SampleMember ps m) :
    ¬(m.entry.1 = none ∨ m.entry.2.Undecodable) := by
  obtain ⟨p, -, v, x, rfl, -, hsample⟩ := h
  rintro (h | h)
  · cases h
  · exact hsample.decodable h

theorem conforms (ho : NameMap.Ascending ps) (h : SampleMember ps m) :
    MemberConforms .lenient ps m.entry := by
  obtain ⟨p, hp, v, x, rfl, -, hsample⟩ := h
  have hdeclared : declared? .lenient ps p.1 = some p.2 := by
    simp only [declared?, NameMap.find?_of_mem ho hp]
  exact ⟨p.1, p.2, rfl, hdeclared, hsample.conforms⟩

/-- The value of a sample enters no more containers than the required properties demand. -/
theorem shallow (ho : NameMap.Ascending ps) (h : SampleMember ps m) {name : String}
    {node : Schema} {v : Value} {n : Nat} (he : m.entry = (some name, v))
    (hf : NameMap.find? name ps = some node) (hn : Enters node v n) :
    n ≤ Schema.demandOfProperties ps := by
  obtain ⟨p, hp, u, x, rfl, hopt, hsample⟩ := h
  cases he
  rw [NameMap.find?_of_mem ho hp] at hf
  cases hf
  exact Nat.le_trans (hsample.shallow n hn) (Schema.demand_le_of_mem hp hopt)

end SampleMember

theorem valid_moreSamples {ps : List (String × Schema)} {ms : List Member}
    (h : ∀ m ∈ ms, SampleMember ps m) : Utf8.Valid (moreMembers ms) := by
  induction ms with
  | nil => exact Utf8.valid_nil
  | cons m ms ih =>
      obtain ⟨hm, hms⟩ := List.forall_mem_cons.mp h
      rw [Json.moreMembers_cons, Utf8.valid_cons_ascii (by decide)]
      exact hm.valid.append (ih hms)

/-- Samples of the properties give samples of the required ones as members. -/
theorem exists_sampleMembers {ps : List (String × Schema)}
    (h : ∀ p ∈ ps, ∃ v x, Sample p.2 v x) :
    ∃ ms : List Member, (∀ m ∈ ms, SampleMember ps m) ∧
      ∀ p ∈ ps, p.2.optional = false → ∃ m ∈ ms, m.key = some p.1 := by
  induction ps with
  | nil => exact ⟨[], nofun, nofun⟩
  | cons q ps ih =>
      obtain ⟨⟨v, x, hq⟩, hps⟩ := List.forall_mem_cons.mp h
      obtain ⟨ms, hms, hrequired⟩ := ih hps
      have hmore : ∀ m ∈ ms, SampleMember (q :: ps) m := by
        intro m hm
        obtain ⟨p, hp, hsample⟩ := hms m hm
        exact ⟨p, List.mem_cons_of_mem _ hp, hsample⟩
      cases hopt : q.2.optional with
      | true =>
          refine ⟨ms, hmore, List.forall_mem_cons.mpr ⟨fun h => ?_, hrequired⟩⟩
          rw [hopt] at h
          cases h
      | false =>
          refine ⟨bareMember q.1 v x :: ms,
            List.forall_mem_cons.mpr ⟨⟨q, List.mem_cons_self, v, x, rfl, hopt, hq⟩, hmore⟩,
            List.forall_mem_cons.mpr ⟨fun _ => ⟨_, List.mem_cons_self, rfl⟩, fun p hp hp' => ?_⟩⟩
          obtain ⟨m, hm, hkey⟩ := hrequired p hp hp'
          exact ⟨m, List.mem_cons_of_mem _ hm, hkey⟩

/-- Samples of the required properties make a sample of an object. -/
theorem sample_object {t : Schema} (ho : t.Ordered) (hk : t.kind = .object) {ms : List Member}
    (hms : ∀ m ∈ ms, SampleMember t.properties m)
    (hrequired : ∀ p ∈ t.properties, p.2.optional = false → ∃ m ∈ ms, m.key = some p.1) :
    ∃ x, Sample t (.object (ms.map Member.entry)) x := by
  have htext : ∃ x, Text (.object (ms.map Member.entry)) x ∧ Utf8.Valid x := by
    cases ms with
    | nil =>
        have hblanks : Blanks [] := nofun
        exact ⟨_, .emptyObject hblanks, "\x7b\x7d", rfl⟩
    | cons m ms =>
        obtain ⟨hm, hmore⟩ := List.forall_mem_cons.mp hms
        refine ⟨_, .object (fun m hm => (hms m hm).blanks.1) (fun m hm => (hms m hm).blanks.2)
          (fun m hm => (hms m hm).text), ?_⟩
        rw [Utf8.valid_cons_ascii (by decide)]
        exact hm.valid.append ((valid_moreSamples hmore).append (Utf8.valid_ascii (by decide)))
  obtain ⟨x, htext, hvalid⟩ := htext
  refine ⟨x, htext, hvalid, ?_, ?_, ?_⟩
  · rw [undecodable_object_iff]
    rintro ⟨e, he, h⟩
    obtain ⟨m, hm, rfl⟩ := List.mem_map.mp he
    exact (hms m hm).decodable h
  · refine (conforms_object_iff hk).mpr
      ⟨List.forall_mem_map.mpr fun m hm => ?_, fun p hp hopt => ?_⟩
    · exact (hms m hm).conforms ho.ascending
    · obtain ⟨m, hm, hkey⟩ := hrequired p hp hopt
      exact ⟨m.entry, List.mem_map_of_mem hm, hkey⟩
  · intro n hn
    rw [Schema.demand_object hk]
    cases hn with
    | root _ _ => exact Nat.le_add_left ..
    | member _ hf he hn =>
        obtain ⟨m, hm, heq⟩ := List.mem_map.mp he
        exact Nat.succ_le_succ ((hms m hm).shallow ho.ascending heq hf hn)

/-- A value that conforms to a node that describes no container is a sample. -/
theorem sample_scalar {t : Schema} {v : Value} {x : List UInt8}
    (ht : ¬(t.kind = .array ∨ t.kind = .object)) (hx : Text v x) (hvalid : Utf8.Valid x)
    (hdecodable : ¬v.Undecodable) (hv : Conforms .lenient t v) : Sample t v x :=
  ⟨hx, hvalid, hdecodable, hv, fun _ hn => absurd hn (Walk.not_enters ht)⟩

theorem decodable_zero : ¬(Value.number [Byte.zero]).Undecodable := by
  intro h
  cases h with
  | number h =>
      obtain ⟨b, more, s, p, hwritten, hfirst, hdrive⟩ := h
      cases hwritten
      cases hfirst
      cases hdrive

/-- Every tree has a sample. -/
theorem exists_sample {t : Schema} (ho : t.Ordered) : ∃ v x, Sample t v x := by
  induction t with
  | node kind optional properties items ihproperties _ =>
      cases kind with
      | string =>
          exact ⟨_, _, sample_scalar (by simp) (Json.Literal.text_encode "") ⟨_, rfl⟩ nofun
            (.scalar rfl rfl)⟩
      | number =>
          have hzero : Json.Number.Written [Byte.zero] := .parts (Or.inl rfl) .zero .none .none
          exact ⟨_, _, sample_scalar (by simp) (.number hzero) ⟨"0", rfl⟩ decodable_zero
            (.scalar rfl rfl)⟩
      | boolean => exact ⟨_, _, sample_scalar (by simp) .true ⟨"true", rfl⟩ nofun (.scalar rfl rfl)⟩
      | null => exact ⟨_, _, sample_scalar (by simp) .null ⟨"null", rfl⟩ nofun (.null rfl)⟩
      | any => exact ⟨_, _, sample_scalar (by simp) .null ⟨"null", rfl⟩ nofun (.any rfl rfl)⟩
      | array =>
          have hblanks : Blanks [] := nofun
          refine ⟨_, _, .emptyArray hblanks, ⟨"[]", rfl⟩, ?_,
            (conforms_array_iff rfl).mpr nofun, ?_⟩
          · rw [undecodable_array_iff]
            nofun
          · intro n hn
            rw [Schema.demand_array rfl]
            cases hn with
            | root _ _ => exact Nat.le_refl 1
            | item _ _ hv _ => cases hv
      | object =>
          obtain ⟨ms, hms, hrequired⟩ := exists_sampleMembers fun p hp =>
            ihproperties p hp (ho.property hp)
          obtain ⟨x, hsample⟩ := sample_object ho rfl hms hrequired
          exact ⟨_, x, hsample⟩

/-! ## Documents that are accepted -/

/-- A walk accepts some document just if it can follow the levels that are demanded. -/
theorem exists_document_iff {t : Schema} (ho : t.Ordered) :
    (∃ document, isBlankDocument document = false ∧ valid t document = true) ↔
      t.demand ≤ 127 := by
  have hlenient : Walk.refuses .lenient t = false := rfl
  have hvalid : ∀ document, isBlankDocument document = false →
      (valid t document = true ↔ Walk.run .lenient ⟨[], .value t⟩ .start document = .ok ()) := by
    intro document hblank
    rw [valid_eq_true_iff, check, hblank, hlenient]
    simp only [Bool.false_eq_true, if_false]
  constructor
  · rintro ⟨document, hblank, h⟩
    have hrun := (hvalid document hblank).mp h
    obtain ⟨v, hv⟩ := Walk.written_of_run hrun
    have houtcome := Walk.settles_written hv hlenient
    rw [hrun] at houtcome
    cases houtcome with
    | passes hfits =>
        rcases Nat.eq_zero_or_pos t.demand with hzero | hpos
        · omega
        · have hdeep := hfits.2 _ (enters_demand ho hfits.1 hpos)
          simp only [Walk.maxOpen] at hdeep
          omega
  · intro hdemand
    obtain ⟨v, x, hsample⟩ := exists_sample ho
    have hwritten : Json.Written v x :=
      ⟨[], x, [], by simp, List.forall_mem_nil _, List.forall_mem_nil _, hsample.text⟩
    have hblank := not_blank_of_written hwritten
    refine ⟨x, hblank, (hvalid x hblank).mpr ?_⟩
    have houtcome := Walk.settles_written hwritten hlenient
    generalize Walk.run .lenient ⟨[], .value t⟩ .start x = result at houtcome
    cases houtcome with
    | passes _ => rfl
    | breaks h => exact absurd hsample.conforms h.not_conforms
    | sticks h =>
        cases h with
        | undecodable h _ => exact absurd h hsample.decodable
        | notUtf8 h => exact absurd hsample.valid h
        | tooDeep hn hdeep =>
            have hshallow := hsample.shallow _ hn
            simp only [Walk.maxOpen] at hdeep
            omega

/-! ## Schemas that parsing accepts -/

/-- A schema that parsing accepts is usable unless its required properties make every value
nest deeper than 127 levels. -/
theorem usable_iff_demand {source : String} {t : Schema} (h : parse source = .ok t) :
    (∃ document, isBlankDocument document = false ∧ valid t document = true) ↔
      t.demand ≤ 127 :=
  exists_document_iff (parsed_of_parse h).ordered

/-- Objects inside one another, each a required property of the one around it. -/
def nestedObjects : Nat → Schema
  | 0 => { kind := .object }
  | n + 1 => { kind := .object, properties := [("a", nestedObjects n)] }

theorem nestedObjects_required (n : Nat) : (nestedObjects n).optional = false := by
  cases n <;> rfl

theorem levels_nestedObjects (n : Nat) : (nestedObjects n).levels = n + 1 := by
  induction n with
  | zero => rfl
  | succ n ih => simp [nestedObjects, Schema.levels, Schema.levelsOfProperties, ih]

theorem demand_nestedObjects (n : Nat) : (nestedObjects n).demand = n + 1 := by
  induction n with
  | zero => rfl
  | succ n ih =>
      simp [nestedObjects, Schema.demand, Schema.demandOfProperties, nestedObjects_required, ih]

theorem parse_nestedObjects {n : Nat} (h : n < 128) :
    parse (nestedObjects n).canonical = .ok (nestedObjects n) := by
  have hname : Schema.IsName "a" := by
    refine ⟨'a', [], rfl, rfl, nofun, fun kind keyword h => ?_⟩
    cases kind <;> cases h <;> decide
  have hparts : (nestedObjects n).Ordered ∧ (nestedObjects n).Trim ∧ (nestedObjects n).Named := by
    clear h
    induction n with
    | zero => exact ⟨.of_parts .nil nofun nofun, .node nofun (fun _ => rfl) nofun nofun,
        .node nofun nofun nofun⟩
    | succ n ih =>
        obtain ⟨hordered, htrim, hnamed⟩ := ih
        exact ⟨
          .of_parts (List.pairwise_singleton _ _) (List.forall_mem_singleton.mpr hordered) nofun,
          .node nofun (fun _ => rfl) (List.forall_mem_singleton.mpr htrim) nofun,
          .node (fun _ => List.forall_mem_singleton.mpr hname)
            (fun _ => List.forall_mem_singleton.mpr hnamed) nofun⟩
  obtain ⟨hordered, htrim, hnamed⟩ := hparts
  have hlevels : (nestedObjects n).levels ≤ 128 := by
    rw [levels_nestedObjects]
    omega
  have hparse :=
    Parse.parse_of_readsBack (Parse.readsBack_of_named .canonical hnamed hordered) hlevels
  rwa [Schema.strip_of_trim htrim] at hparse

/-- 127 levels can be demanded. -/
theorem usable_nestedObjects :
    parse (nestedObjects 126).canonical = .ok (nestedObjects 126) ∧
      ∃ document, isBlankDocument document = false ∧ valid (nestedObjects 126) document = true := by
  have h := parse_nestedObjects (n := 126) (by decide)
  exact ⟨h, (usable_iff_demand h).mpr (Nat.le_of_eq (demand_nestedObjects 126))⟩

/-- Parsing accepts 128 levels, and no document has as many that a walk can follow. -/
theorem not_usable_nestedObjects :
    parse (nestedObjects 127).canonical = .ok (nestedObjects 127) ∧
      ¬∃ document,
        isBlankDocument document = false ∧ valid (nestedObjects 127) document = true := by
  have h := parse_nestedObjects (n := 127) (by decide)
  refine ⟨h, ?_⟩
  rw [exists_document_iff (parsed_of_parse h).ordered, demand_nestedObjects]
  decide

end Jstn
