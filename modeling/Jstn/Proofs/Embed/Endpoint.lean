import Jstn.Embed.Endpoint
import Jstn.Proofs.Embed.SchemaText

/-!
# Documents that are written back

A document with embedded schemas may be written in many ways: its fields stand in any order,
other members stand among them, and schemas are laid out as their authors like.  Writing it
back leaves one of these ways, which depends on the endpoint alone (`rewrite_stable`).

What is written is read from field to field, and every field takes its own bytes and no more
(`readMembers_member`).  A schema of the endpoint is only known to be what some text was
parsed to (`sound_of_read`).  That is enough, since such a schema is what its canonical text
is parsed to.
-/

namespace Jstn

open Json (Byte.closeBrace Byte.colon Byte.comma Byte.openBrace Byte.quote Container Cursor
  Literal.Denotes Literal.encodeBody Literal.quoted Position)

namespace Embed

variable {α : Type} {reader : Cursor → Outcome α} {xs : List UInt8} {a : α}

/-! ## Keys, members and ends -/

theorem takes_readKeyText {body : List UInt8} {key : String}
    (h : Literal.Denotes body (some key)) :
    Takes readKeyText (Literal.quoted body) (some key) := by
  intro p rest
  rw [Literal.quoted, List.cons_append, List.append_assoc, List.singleton_append]
  simp only [readKeyText, Cursor.advance, if_true, lift_read_of_denotes h]
  rfl

theorem takes_readKey_first {body : List UInt8} {key : String}
    (h : Literal.Denotes body (some key)) :
    Takes (readKey true) (Literal.quoted body) (some key) :=
  fun p rest => takes_readKeyText h p rest

theorem takes_readKey_next {body : List UInt8} {key : String}
    (h : Literal.Denotes body (some key)) :
    Takes (readKey false) (Byte.comma :: Literal.quoted body) (some key) :=
  fun p rest => takes_readKeyText h (p.after Byte.comma) rest

/-- The end of an object is seen and left. -/
theorem readKey_closeBrace (first : Bool) (p : Position) (rest : List UInt8) :
    readKey first ⟨p, Byte.closeBrace :: rest⟩ = .ok (none, ⟨p, Byte.closeBrace :: rest⟩) := rfl

theorem Takes.afterColon (h : Takes reader xs a) :
    Takes (readAfterColon reader) (Byte.colon :: xs) a := by
  intro p rest
  have hcolon := takes_readColon p (xs ++ rest)
  rw [List.singleton_append] at hcolon
  rw [readAfterColon, List.cons_append, hcolon]
  exact h _ rest

end Embed

namespace Endpoint

open Embed

/-! ## What is written is read -/

theorem takes_readOnce {α : Type} (name : String) {reader : Cursor → Outcome α}
    {xs : List UInt8} {a : α} (h : Takes reader xs a) :
    Takes (readOnce name none reader) (Byte.colon :: xs) a := h.afterColon

/-- A member of an object is read after its key, and the others after it. -/
theorem readMembers_member {d d' : Draft} {first : Bool} {key : String} {xs ys : List UInt8}
    (hkey : Takes (readKey first) xs (some key)) (hmember : Takes (d.readMember key) ys d')
    (p : Position) (rest : List UInt8) :
    readMembers d first ⟨p, xs ++ (ys ++ rest)⟩ =
      readMembers d' false ⟨(p.afterAll xs).afterAll ys, rest⟩ := by
  have hk := hkey p (ys ++ rest)
  have hm := hmember (p.afterAll xs) rest
  rw [readMembers]
  split
  next heq => cases heq.symm.trans hk
  next heq => cases heq.symm.trans hk
  next heq =>
    cases heq.symm.trans hk
    split
    next heq => cases heq.symm.trans hm
    next heq =>
      cases heq.symm.trans hm
      rfl

theorem readMembers_closeBrace (d : Draft) (first : Bool) (p : Position) (rest : List UInt8) :
    readMembers d first ⟨p, Byte.closeBrace :: rest⟩ = .ok (d, ⟨p, Byte.closeBrace :: rest⟩) := by
  have hk := readKey_closeBrace first p rest
  rw [readMembers]
  split
  next heq => cases heq.symm.trans hk
  next heq =>
    cases heq.symm.trans hk
    rfl
  next heq => cases heq.symm.trans hk

namespace Draft

variable {d d' : Draft} {xs : List UInt8}

theorem takes_readMember_path {path : String} (hd : d.path = none) (h : Takes readString xs path) :
    Takes (d.readMember "path") (Byte.colon :: xs) { d with path := some path } := by
  intro p rest
  rw [readMember, if_pos rfl, hd]
  exact (takes_readOnce "path" h).map (fun path => { d with path := some path }) p rest

theorem takes_readMember_response {response : Schema} (hd : d.response = none)
    (h : Takes readSchema xs response) :
    Takes (d.readMember "response") (Byte.colon :: xs) { d with response := some response } := by
  intro p rest
  rw [readMember, if_neg (by decide), if_pos rfl, hd]
  have hresponse := takes_readOnce "response" h
  exact hresponse.map (fun response => { d with response := some response }) p rest

theorem takes_readMember_fallback {fallback : Option Schema} (hd : d.fallback = none)
    (h : Takes readOptionalSchema xs fallback) :
    Takes (d.readMember "fallback") (Byte.colon :: xs) { d with fallback := some fallback } := by
  intro p rest
  rw [readMember, if_neg (by decide), if_neg (by decide), if_pos rfl, hd]
  have hfallback := takes_readOnce "fallback" h
  exact hfallback.map (fun fallback => { d with fallback := some fallback }) p rest

end Draft

/-- An endpoint whose schemas are what their canonical texts are parsed to. -/
structure Settled (e : Endpoint) : Prop where
  response : parse e.response.canonical = .ok e.response
  fallback : ∀ t ∈ e.fallback, parse t.canonical = .ok t

theorem takes_fallback {fallback : Option Schema}
    (h : ∀ t ∈ fallback, parse t.canonical = .ok t) :
    Takes readOptionalSchema (Utf8.encode (writeOptional fallback)) fallback := by
  cases fallback with
  | none => exact takes_readOptionalSchema_null (w := []) nofun
  | some t => exact readsText_readOptionalSchema.takes (h t rfl)

/-- The bytes of an endpoint, key by key and value by value. -/
theorem encode_write (e : Endpoint) :
    Utf8.encode e.write =
      Byte.openBrace :: (Literal.quoted (Literal.encodeBody "path") ++
        (Byte.colon :: Utf8.encode (Json.Literal.encode e.path) ++
          (Byte.comma :: Literal.quoted (Literal.encodeBody "response") ++
            (Byte.colon :: Utf8.encode (Embed.write e.response) ++
              (Byte.comma :: Literal.quoted (Literal.encodeBody "fallback") ++
                (Byte.colon :: Utf8.encode (writeOptional e.fallback) ++
                  [Byte.closeBrace])))))) := by
  have hpath : Utf8.encode "\x7b\"path\":" =
      Byte.openBrace :: Literal.quoted (Literal.encodeBody "path") ++ [Byte.colon] := by
    decide +kernel
  have hresponse : Utf8.encode ",\"response\":" =
      Byte.comma :: Literal.quoted (Literal.encodeBody "response") ++ [Byte.colon] := by
    decide +kernel
  have hfallback : Utf8.encode ",\"fallback\":" =
      Byte.comma :: Literal.quoted (Literal.encodeBody "fallback") ++ [Byte.colon] := by
    decide +kernel
  have hclose : Utf8.encode "\x7d" = [Byte.closeBrace] := by decide +kernel
  simp only [write, Utf8.encode_append, hpath, hresponse, hfallback, hclose, List.append_assoc,
    List.cons_append, List.nil_append]

/-- The fields of an endpoint are read one after the other. -/
theorem readMembers_write {e : Endpoint} (h : e.Settled) (p : Position) :
    ∃ q, readMembers {} true ⟨p, (Utf8.encode e.write).tail⟩ =
      .ok (⟨some e.path, some e.response, some e.fallback⟩, ⟨q, [Byte.closeBrace]⟩) := by
  have hpath := takes_readKey_first (Json.Literal.denotes_encodeBody "path")
  have hresponse := takes_readKey_next (Json.Literal.denotes_encodeBody "response")
  have hfallback := takes_readKey_next (Json.Literal.denotes_encodeBody "fallback")
  have hliteral : Takes readString (Utf8.encode (Json.Literal.encode e.path)) e.path := by
    rw [Json.Literal.encode_eq_quoted]
    exact takes_readString (Json.Literal.denotes_encodeBody e.path)
  rw [encode_write, List.tail_cons,
    readMembers_member hpath (Draft.takes_readMember_path rfl hliteral),
    readMembers_member hresponse
      (Draft.takes_readMember_response rfl (readsText_readSchema.takes h.response)),
    readMembers_member hfallback
      (Draft.takes_readMember_fallback rfl (takes_fallback h.fallback)),
    readMembers_closeBrace]
  exact ⟨_, rfl⟩

/-- What is written for an endpoint is read as it. -/
theorem read_write {e : Endpoint} (h : e.Settled) : read (Utf8.encode e.write) = .ok e := by
  obtain ⟨bytes, hbytes⟩ : ∃ bytes, Utf8.encode e.write = Byte.openBrace :: bytes :=
    ⟨_, encode_write e⟩
  obtain ⟨q, hmembers⟩ := readMembers_write h (Position.start.after Byte.openBrace)
  rw [hbytes, List.tail_cons] at hmembers
  have hfields : readFields ⟨Position.start.after Byte.openBrace, bytes⟩ =
      .ok (e, ⟨q, [Byte.closeBrace]⟩) := by
    rw [readFields, hmembers]
    rfl
  have hinside : readInside .object readFields ⟨Position.start.after Byte.openBrace, bytes⟩ =
      .ok (e, ⟨q.after Byte.closeBrace, []⟩) := by
    rw [readInside, hfields]
    rfl
  rw [hbytes]
  exact readWhole_eq_ok_iff.mpr ⟨_, hinside, nofun⟩

/-! ## What is read can be written -/

theorem exists_of_readOnce {α : Type} {name : String} {old : Option α}
    {reader : Cursor → Outcome α} {c c' : Cursor} {a : α}
    (h : readOnce name old reader c = .ok (a, c')) : ∃ c₀, reader c₀ = .ok (a, c') := by
  unfold readOnce readAfterColon at h
  split at h
  · cases h
  · split at h
    · cases h
    · exact ⟨_, h⟩

theorem settled_of_readSchema {c c' : Cursor} {t : Schema} (h : readSchema c = .ok (t, c')) :
    parse t.canonical = .ok t := by
  obtain ⟨w, body, s, -, -, -, hs⟩ := readsText_readSchema.only h
  exact parse_canonical_of_parse hs

theorem settled_of_readOptionalSchema {c c' : Cursor} {o : Option Schema}
    (h : readOptionalSchema c = .ok (o, c')) : ∀ t ∈ o, parse t.canonical = .ok t := by
  rintro t rfl
  obtain ⟨w, body, s, -, -, -, hs⟩ := readsText_readOptionalSchema.only h
  exact parse_canonical_of_parse hs

/-- The schemas that a draft holds are what their canonical texts are parsed to. -/
structure Draft.Settled (d : Draft) : Prop where
  response : ∀ t ∈ d.response, parse t.canonical = .ok t
  fallback : ∀ t ∈ d.fallback.join, parse t.canonical = .ok t

theorem Draft.settled_empty : Draft.Settled {} := ⟨by simp, by simp⟩

/-- A member adds to a draft what it was read as. -/
theorem Draft.settled_of_readMember {d d' : Draft} {key : String} {c c' : Cursor}
    (hd : d.Settled) (h : d.readMember key c = .ok (d', c')) : d'.Settled := by
  unfold Draft.readMember at h
  split at h
  · obtain ⟨path, -, rfl⟩ := map_eq_ok h
    exact ⟨hd.response, hd.fallback⟩
  · split at h
    · obtain ⟨response, hread, rfl⟩ := map_eq_ok h
      obtain ⟨c₀, hread⟩ := exists_of_readOnce hread
      refine ⟨?_, hd.fallback⟩
      rintro t ⟨⟩
      exact settled_of_readSchema hread
    · split at h
      · obtain ⟨fallback, hread, rfl⟩ := map_eq_ok h
        obtain ⟨c₀, hread⟩ := exists_of_readOnce hread
        exact ⟨hd.response, settled_of_readOptionalSchema hread⟩
      · obtain ⟨_, -, rfl⟩ := map_eq_ok h
        exact hd

/-- A run over the members keeps what one member keeps. -/
theorem settled_of_readMembers {d d' : Draft} {first : Bool} {c c' : Cursor} (hd : d.Settled)
    (h : readMembers d first c = .ok (d', c')) : d'.Settled := by
  fun_induction readMembers d first c with
  | case1 d first c failure hkey => cases h
  | case2 d first c c₁ hkey =>
      cases h
      exact hd
  | case3 d first c key c₁ hkey failure hmember => cases h
  | case4 d first c key c₁ hkey d₁ c₂ hmember hlt ih =>
      exact ih (Draft.settled_of_readMember hd hmember) h

theorem settled_of_readFields {c c' : Cursor} {e : Endpoint}
    (h : readFields c = .ok (e, c')) : e.Settled := by
  unfold readFields at h
  split at h
  · cases h
  next d c₁ hmembers =>
    have hd : d.Settled := settled_of_readMembers Draft.settled_empty hmembers
    unfold Draft.finish at h
    split at h
    · cases h
    · cases h
    next response _ hresponse =>
      cases h
      exact ⟨hd.response response hresponse, hd.fallback⟩

theorem exists_of_readItem {α : Type} {first : Bool} {reader : Cursor → Outcome α}
    {c c' : Cursor} {a : α} (h : readItem first reader c = .ok (some a, c')) :
    ∃ c₀, reader c₀ = .ok (a, c') := by
  unfold readItem at h
  split at h
  · cases h
  · cases h
  next c₀ _ =>
    obtain ⟨_, hread, ha⟩ := map_eq_ok h
    cases ha
    exact ⟨c₀, hread⟩

theorem settled_of_readItems {c c' : Cursor} {e : Endpoint}
    (h : readItems c = .ok (e, c')) : e.Settled := by
  unfold readItems at h
  split at h
  · cases h
  · cases h
  · split at h
    · cases h
    · cases h
    next response _ hitem =>
      obtain ⟨_, hresponse⟩ := exists_of_readItem hitem
      obtain ⟨fallback, hfallback, rfl⟩ := map_eq_ok h
      refine ⟨settled_of_readSchema hresponse, ?_⟩
      intro t ht
      obtain ⟨o, rfl⟩ : ∃ o, fallback = some o := by
        cases fallback with
        | none => cases ht
        | some o => exact ⟨o, rfl⟩
      obtain ⟨_, hread⟩ := exists_of_readItem hfallback
      exact settled_of_readOptionalSchema hread t ht

theorem exists_of_readInside {container : Container} {contents : Cursor → Outcome Endpoint}
    {c c' : Cursor} {e : Endpoint} (h : readInside container contents c = .ok (e, c')) :
    ∃ c₀, contents c = .ok (e, c₀) := by
  unfold readInside at h
  split at h
  · cases h
  next e₀ c₀ hcontents =>
    obtain ⟨_, -, rfl⟩ := map_eq_ok h
    exact ⟨c₀, hcontents⟩

/-- The schemas of an endpoint that is read are what their canonical texts are parsed to. -/
theorem settled_of_read {json : List UInt8} {e : Endpoint} (h : read json = .ok e) :
    e.Settled := by
  obtain ⟨c, hread, -⟩ := readWhole_eq_ok_iff.mp h
  unfold readValue at hread
  dsimp only at hread
  split at hread
  · cases hread
  · split at hread
    · obtain ⟨_, hfields⟩ := exists_of_readInside hread
      exact settled_of_readFields hfields
    · split at hread
      · obtain ⟨_, hitems⟩ := exists_of_readInside hread
        exact settled_of_readItems hitems
      · cases hread

/-! ## Writing back -/

/-- Reads a document and writes it back. -/
def rewrite (json : List UInt8) : Except Embed.Error String := (read json).map write

/-- Writing a document back keeps its endpoint, and doing it again changes nothing.  Two
documents are written back as the same text only if they have the same endpoint. -/
theorem rewrite_stable {json : List UInt8} {e : Endpoint} (h : read json = .ok e) :
    rewrite json = .ok e.write ∧
    read (Utf8.encode e.write) = .ok e ∧
    rewrite (Utf8.encode e.write) = .ok e.write ∧
    ∀ json' e', read json' = .ok e' → (e'.write = e.write ↔ e' = e) := by
  have hread := read_write (settled_of_read h)
  refine ⟨by rw [rewrite, h]; rfl, hread, by rw [rewrite, hread]; rfl, ?_⟩
  intro json' e' h'
  refine ⟨fun hwrite => ?_, fun heq => by rw [heq]⟩
  have hread' := read_write (settled_of_read h')
  rw [hwrite, hread] at hread'
  exact (Except.ok.inj hread').symm

/-- A document with its fields out of order, a member that is skipped among them, escapes and
a schema of several lines. -/
def scattered : String :=
  "\x7b \"note\": [1, \x7b\x7d], \"response\": \"\x7b\\nb: number?\\na: null\\n\x7d\","
    ++ "\n\"p\\u0061th\": \"/\\u00e9\" \x7d"

/-- The same document as it is written back. -/
def gathered : String :=
  "\x7b\"path\":\"/é\",\"response\":\"\x7ba:null;b:number?\x7d\",\"fallback\":null\x7d"

theorem rewrite_stable_scattered :
    rewrite (Utf8.encode scattered) = .ok gathered ∧
      read (Utf8.encode gathered) = read (Utf8.encode scattered) ∧
      rewrite (Utf8.encode gathered) = .ok gathered := by
  obtain ⟨e, hread, hwrite⟩ : ∃ e, read (Utf8.encode scattered) = .ok e ∧ e.write = gathered := by
    refine ⟨⟨"/é", .object [("a", .ofKind .null), ("b", (Schema.ofKind .number).asOptional)],
      none⟩, ?_, ?_⟩ <;> decide +kernel
  obtain ⟨hrewrite, hreread, hagain, -⟩ := rewrite_stable hread
  rw [hwrite] at hrewrite hreread hagain
  exact ⟨hrewrite, hreread.trans hread.symm, hagain⟩

end Endpoint

end Jstn
