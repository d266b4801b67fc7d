import Jstn.Proofs.Print.Relayout

/-!
# Indentation is the depth of objects

A line of pretty text begins with two spaces for every brace that is open before it, and a
line that closes a brace with two less (`indentation_pretty`).  It goes on with one property,
up to the first line of its type, or with the closing brace.  Brackets do not count, although
they stand on the same lines as braces.

The depth is a number that the printer hands down, and the open braces are a count over all
the text before a line.  They are brought together by following the text with the number of
braces that are open where it begins and where it ends (`LaidOut`).  A line is judged where it
begins, by the text after it, so what is said of a text takes the text after it into account.

`Declares` says in how many objects a property of a tree is, and what is seen of it in the
text of the tree is what is seen of it in the text of a part, some objects further out.
-/

namespace Jstn

/-! ## Lines -/

/-- The characters before the first line break. -/
def firstLine (cs : List Char) : List Char := cs.takeWhile fun c => c ≠ '\n'

theorem firstLine_cons {c : Char} (h : c ≠ '\n') (cs : List Char) :
    firstLine (c :: cs) = c :: firstLine cs := List.takeWhile_cons_of_pos (decide_eq_true h)

theorem firstLine_append {xs : List Char} (h : ∀ c ∈ xs, c ≠ '\n') (ys : List Char) :
    firstLine (xs ++ ys) = xs ++ firstLine ys := by
  induction xs with
  | nil => rfl
  | cons c xs ih =>
      obtain ⟨hc, hxs⟩ := List.forall_mem_cons.mp h
      rw [List.cons_append, firstLine_cons hc, ih hxs, List.cons_append]

theorem firstLine_append_break (xs ys : List Char) :
    firstLine (xs ++ '\n' :: ys) = firstLine xs := by
  induction xs with
  | nil => rfl
  | cons c xs ih =>
      by_cases hc : c = '\n'
      · subst hc
        rfl
      · rw [List.cons_append, firstLine_cons hc, firstLine_cons hc, ih]

theorem ne_break_of_mem_indentation {depth : Nat} {c : Char} (h : c ∈ indentation depth) :
    c ≠ '\n' := by
  rw [List.eq_of_mem_replicate h]
  decide

/-! ## Following a text -/

/-- Text `xs` begins inside `opened` braces and ends inside `opened'`, and before `rest` all
lines that begin in it are `good`.  A line is judged by the number of braces that are open
where it begins and by all text from there on. -/
structure LaidOut (good : Nat → List Char → Prop) (opened : Nat) (xs rest : List Char)
    (opened' : Nat) : Prop where
  balance : opened + xs.count '{' = xs.count '}' + opened'
  lines : ∀ before after, xs = before ++ '\n' :: after →
    ∃ n, opened + before.count '{' = before.count '}' + n ∧ good n (after ++ rest)

variable {good good' : Nat → List Char → Prop} {opened opened₁ opened' : Nat}
  {xs ys rest : List Char}

/-- A line that begins in a text of two parts begins in one of them. -/
theorem append_eq_break {before after : List Char} (h : xs ++ ys = before ++ '\n' :: after) :
    (∃ mid, xs = before ++ '\n' :: mid ∧ after = mid ++ ys) ∨
      ∃ mid, before = xs ++ mid ∧ ys = mid ++ '\n' :: after := by
  rcases List.append_eq_append_iff.mp h with h | ⟨mid, hbefore, hafter⟩
  · exact Or.inr h
  · cases mid with
    | nil => exact Or.inr ⟨[], by rw [hbefore, List.append_nil, List.append_nil], hafter.symm⟩
    | cons c mid =>
        rw [List.cons_append] at hafter
        obtain ⟨rfl, rfl⟩ := List.cons.inj hafter
        exact Or.inl ⟨mid, hbefore, rfl⟩

theorem LaidOut.trans (h : LaidOut good opened xs (ys ++ rest) opened₁)
    (h' : LaidOut good opened₁ ys rest opened') :
    LaidOut good opened (xs ++ ys) rest opened' := by
  have hbalance := h.balance
  refine ⟨?_, fun before after heq => ?_⟩
  · have hbalance' := h'.balance
    rw [List.count_append, List.count_append]
    omega
  · rcases append_eq_break heq with ⟨mid, hxs, rfl⟩ | ⟨mid, rfl, hys⟩
    · rw [List.append_assoc]
      exact h.lines before mid hxs
    · obtain ⟨n, hn, hgood⟩ := h'.lines mid after hys
      refine ⟨n, ?_, hgood⟩
      rw [List.count_append, List.count_append]
      omega

theorem LaidOut.imp (h : LaidOut good opened xs rest opened')
    (himp : ∀ n cs, good n cs → good' n cs) : LaidOut good' opened xs rest opened' := by
  refine ⟨h.balance, fun before after heq => ?_⟩
  obtain ⟨n, hn, hgood⟩ := h.lines before after heq
  exact ⟨n, hn, himp n _ hgood⟩

/-- No line begins in a text without a line break. -/
theorem laidOut_flat (hbreak : ∀ c ∈ xs, c ≠ '\n')
    (hbalance : opened + xs.count '{' = xs.count '}' + opened') :
    LaidOut good opened xs rest opened' := by
  refine ⟨hbalance, fun before after heq => absurd rfl (hbreak '\n' ?_)⟩
  rw [heq]
  exact List.mem_append_right _ List.mem_cons_self

theorem laidOut_inline (h : ∀ c ∈ xs, IsInline c) : LaidOut good opened xs rest opened := by
  have hopen : xs.count '{' = 0 := List.count_eq_zero.mpr fun hmem => (h _ hmem).2.2.1 rfl
  have hclose : xs.count '}' = 0 := List.count_eq_zero.mpr fun hmem => (h _ hmem).2.2.2 rfl
  refine laidOut_flat (fun c hc => (h c hc).2.1) ?_
  rw [hopen, hclose]
  omega

theorem laidOut_spaces (n : Nat) :
    LaidOut good opened (List.replicate n ' ') rest opened := by
  refine laidOut_flat (fun c hc => ?_) ?_
  · rw [List.eq_of_mem_replicate hc]
    decide
  · rw [List.count_replicate, List.count_replicate]
    exact Nat.add_comm ..

/-- A line begins after a line break. -/
theorem laidOut_break (h : good opened rest) : LaidOut good opened ['\n'] rest opened := by
  refine ⟨Nat.add_comm .., fun before after heq => ?_⟩
  cases before with
  | nil =>
      obtain ⟨-, rfl⟩ := List.cons.inj heq
      exact ⟨opened, Nat.add_comm .., h⟩
  | cons c before => exact absurd (List.cons.inj heq).2 (by simp)

/-! ## The lines of a tree -/

namespace Schema

/-- Property `name` of type `p` stands in the text of the tree, inside `depth` objects. -/
inductive Declares : Schema → Nat → String → Schema → Prop
  | property {t : Schema} {p : String × Schema} :
      t.kind = .object → p ∈ t.properties → Declares t 1 p.1 p.2
  | inProperty {t child : Schema} {p : String × Schema} {depth : Nat} {name : String} :
      t.kind = .object → p ∈ t.properties → Declares p.2 depth name child →
      Declares t (depth + 1) name child
  | inItem {t item child : Schema} {depth : Nat} {name : String} :
      t.kind = .array → t.items = some item → Declares item depth name child →
      Declares t depth name child

/-- A line of the text of the tree inside `depth` objects, judged where it begins, which is
inside `opened` braces.  It is indented by the objects around what stands in it, and `k` of
these are in the tree.  What stands in it is the closing brace of an object, or a property up
to the first line of its type. -/
def LineOf (t : Schema) (depth opened : Nat) (text : List Char) : Prop :=
  ∃ k c cs, firstLine text = List.replicate (2 * (depth + k)) ' ' ++ c :: cs ∧ c ≠ ' ' ∧
    opened = depth + k + (if c = '}' then 1 else 0) ∧
    (c = '}' ∨ ∃ name p, Declares t k name p ∧
      c :: cs = name.toList ++ ':' :: ' ' :: firstLine p.pretty.toList)

/-- What is a line of a part is a line of the tree. -/
theorem LineOf.imp {s t : Schema} {depth : Nat} (outer : Nat) {text : List Char}
    (h : LineOf s (depth + outer) opened text)
    (himp : ∀ k name p, Declares s k name p → Declares t (k + outer) name p) :
    LineOf t depth opened text := by
  obtain ⟨k, c, cs, hline, hspace, hopened, hc⟩ := h
  have hdepth : depth + outer + k = depth + (k + outer) := by omega
  rw [hdepth] at hline hopened
  refine ⟨k + outer, c, cs, hline, hspace, hopened, hc.imp id ?_⟩
  rintro ⟨name, p, hp, hcs⟩
  exact ⟨name, p, himp k name p hp, hcs⟩

/-- All lines that begin in the text of the tree are lines of the tree, whatever the depth is
and whatever follows. -/
def Indents (t : Schema) : Prop :=
  ∀ (depth : Nat) (rest : List Char),
    LaidOut (t.LineOf depth) depth (t.chars .pretty depth) rest depth

/-- The first line of a text does not depend on the depth. -/
theorem firstLine_chars (t : Schema) (depth depth' : Nat) (rest : List Char) :
    firstLine (t.chars .pretty depth ++ rest) = firstLine (t.chars .pretty depth' ++ rest) := by
  induction t generalizing rest with
  | node kind optional properties items _ ihitems =>
      cases kind with
      | string | number | boolean | null | any => rfl
      | object =>
          cases properties with
          | nil => rfl
          | cons p ps => rfl
      | array =>
          cases items with
          | none => rfl
          | some t =>
              have hitem := ihitems t rfl (']' :: (if optional then ['?'] else []) ++ rest)
              simpa [chars, itemChars, firstLine_cons] using hitem

theorem laidOut_mark (optional : Bool) :
    LaidOut good opened (if optional then ['?'] else []) rest opened := by
  cases optional with
  | false => exact laidOut_inline nofun
  | true => exact laidOut_inline (by simp [IsInline])

/-! ## The lines of properties -/

theorem lineOf_close (t : Schema) (depth : Nat) (rest : List Char) :
    LineOf t depth (depth + 1) (indentation depth ++ ['}'] ++ rest) := by
  refine ⟨0, '}', firstLine rest, ?_, by decide, rfl, Or.inl rfl⟩
  rw [List.append_assoc, firstLine_append fun c => ne_break_of_mem_indentation]
  exact congrArg _ (firstLine_cons (by decide) rest)

theorem lineOf_property {t : Schema} {p : String × Schema} (hk : t.kind = .object)
    (hp : p ∈ t.properties) (hname : IsWord p.1) (depth : Nat) (rest : List Char) :
    LineOf t depth (depth + 1) (indentation (depth + 1) ++
      (p.1.toList ++ ([':', ' '] ++ (p.2.chars .pretty (depth + 1) ++ '\n' :: rest)))) := by
  obtain ⟨hne, hinline⟩ := hname.inline
  obtain ⟨c, cs, hchars⟩ := List.exists_cons_of_ne_nil hne
  have hc : IsInline c := hinline c (hchars ▸ List.mem_cons_self)
  have htype : firstLine (p.2.chars .pretty (depth + 1) ++ '\n' :: rest) =
      firstLine p.2.pretty.toList := by
    rw [firstLine_chars p.2 (depth + 1) 0, firstLine_append_break, pretty, render,
      String.toList_ofList]
  refine ⟨1, c, cs ++ ([':', ' '] ++ firstLine p.2.pretty.toList), ?_, hc.1, ?_,
    Or.inr ⟨p.1, p.2, .property hk hp, ?_⟩⟩
  · rw [firstLine_append fun c => ne_break_of_mem_indentation,
      firstLine_append fun c hc => (hinline c hc).2.1, firstLine_append (by simp), htype, hchars]
    rfl
  · rw [if_neg hc.2.2.2]
  · rw [hchars]
    rfl

/-- The lines of properties and the closing brace, from the line break before them. -/
theorem laidOut_lines {t : Schema} (hk : t.kind = .object) (depth : Nat)
    {ps : List (String × Schema)}
    (hps : ∀ p ∈ ps, p ∈ t.properties ∧ IsWord p.1 ∧ Indents p.2) :
    LaidOut (t.LineOf depth) (depth + 1)
      (['\n'] ++ (Parse.lineText (depth + 1) ps ++ (indentation depth ++ ['}']))) rest depth := by
  induction ps with
  | nil =>
      have hclose : LaidOut (t.LineOf depth) (depth + 1) ['}'] rest depth :=
        laidOut_flat (by simp) (Nat.add_comm depth 1)
      exact (laidOut_break (lineOf_close t depth rest)).trans ((laidOut_spaces _).trans hclose)
  | cons p ps ih =>
      -- The line break that ends the first property is the one before the lines of the others.
      obtain ⟨⟨hp, hname, hindents⟩, hps⟩ := List.forall_mem_cons.mp hps
      have htype : ∀ rest, LaidOut (t.LineOf depth) (depth + 1) (p.2.chars .pretty (depth + 1))
          rest (depth + 1) := by
        intro rest
        refine (hindents (depth + 1) rest).imp fun n text hline => ?_
        exact hline.imp 1 fun k name q hq => .inProperty hk hp hq
      have hcolon : ∀ rest, LaidOut (t.LineOf depth) (depth + 1) [':', ' '] rest (depth + 1) :=
        fun rest => laidOut_flat (by simp) (Nat.add_comm ..)
      have htext : Parse.lineText (depth + 1) (p :: ps) ++ (indentation depth ++ ['}']) =
          indentation (depth + 1) ++ (p.1.toList ++ ([':', ' '] ++
            (p.2.chars .pretty (depth + 1) ++ (['\n'] ++
              (Parse.lineText (depth + 1) ps ++ (indentation depth ++ ['}'])))))) := by
        rw [Parse.lineText_cons]
        simp
      rw [htext]
      refine (laidOut_break ?_).trans ((laidOut_spaces _).trans
        ((laidOut_inline hname.inline.2).trans ((hcolon _).trans ((htype _).trans (ih hps)))))
      simpa using lineOf_property hk hp hname depth _

theorem indents_object (optional : Bool) {properties : List (String × Schema)}
    (items : Option Schema) (hps : ∀ p ∈ properties, IsWord p.1 ∧ Indents p.2) :
    Indents ⟨.object, optional, properties, items⟩ := by
  intro depth rest
  cases properties with
  | nil =>
      have hbraces : ∀ rest, LaidOut (LineOf ⟨.object, optional, [], items⟩ depth) depth
          ['{', '}'] rest depth := fun rest => laidOut_flat (by simp) (Nat.add_comm ..)
      exact (hbraces _).trans (laidOut_mark optional)
  | cons p ps =>
      have htext : chars .pretty depth ⟨.object, optional, p :: ps, items⟩ =
          ['{'] ++ ((['\n'] ++ (Parse.lineText (depth + 1) (p :: ps) ++
            (indentation depth ++ ['}']))) ++ if optional then ['?'] else []) := rfl
      have hopen : ∀ rest, LaidOut (LineOf ⟨.object, optional, p :: ps, items⟩ depth) depth
          ['{'] rest (depth + 1) := fun rest => laidOut_flat (by simp) (Nat.zero_add _).symm
      rw [htext]
      exact (hopen _).trans ((laidOut_lines rfl depth fun q hq => ⟨hq, hps q hq⟩).trans
        (laidOut_mark optional))

theorem indents_array (optional : Bool) (properties : List (String × Schema))
    {items : Option Schema} (hitems : ∀ t, items = some t → Indents t) :
    Indents ⟨.array, optional, properties, items⟩ := by
  intro depth rest
  have htext : chars .pretty depth ⟨.array, optional, properties, items⟩ =
      ['['] ++ (itemChars .pretty depth items ++ ([']'] ++ if optional then ['?'] else [])) := rfl
  have hbracket : ∀ c ∈ ['[', ']'], ∀ rest,
      LaidOut (LineOf ⟨.array, optional, properties, items⟩ depth) depth [c] rest depth := by
    intro c hc rest
    have hinline : ∀ c ∈ ['[', ']'], IsInline c := by simp [IsInline]
    exact laidOut_inline (List.forall_mem_singleton.mpr (hinline c hc))
  have hitem : ∀ rest, LaidOut (LineOf ⟨.array, optional, properties, items⟩ depth) depth
      (itemChars .pretty depth items) rest depth := by
    intro rest
    cases items with
    | none => exact laidOut_inline nofun
    | some t =>
        refine (hitems t rfl depth rest).imp fun n text hline => ?_
        exact LineOf.imp 0 hline fun k name q hq => .inItem rfl rfl hq
  rw [htext]
  exact (hbracket '[' (by decide) _).trans ((hitem _).trans
    ((hbracket ']' (by decide) _).trans (laidOut_mark optional)))

theorem indents_keyword {kind : Kind} (optional : Bool) (properties : List (String × Schema))
    (items : Option Schema) (ha : kind ≠ .array) (ho : kind ≠ .object) :
    Indents ⟨kind, optional, properties, items⟩ := by
  intro depth rest
  have htext : chars .pretty depth ⟨kind, optional, properties, items⟩ =
      kind.name.toList ++ if optional then ['?'] else [] := by
    cases kind with
    | array => exact absurd rfl ha
    | object => exact absurd rfl ho
    | string | number | boolean | null | any => rfl
  have hword := (isWord_name kind).inline
  rw [htext]
  exact (laidOut_inline hword.2).trans (laidOut_mark optional)

theorem indents_of_worded {t : Schema} (h : Worded t) : Indents t := by
  induction t with
  | node kind optional properties items ihproperties ihitems =>
      cases h with
      | node hwords hworded hitems =>
          cases kind with
          | array =>
              exact indents_array optional properties fun t ht => ihitems t ht (hitems rfl t ht)
          | object =>
              exact indents_object optional items fun p hp =>
                ⟨hwords rfl p hp, ihproperties p hp (hworded rfl p hp)⟩
          | string | number | boolean | null | any =>
              exact indents_keyword optional properties items nofun nofun

end Schema

open Schema (Worded)

/-- A line of pretty text is indented by the braces that are open before it.  It is one
property up to the first line of its type, which is declared in as many objects, or it begins
with the closing brace of an object. -/
theorem indentation_pretty {t : Schema} (h : t.Worded) {before after : List Char}
    (htext : t.pretty.toList = before ++ '\n' :: after) :
    ∃ k c cs, firstLine after = List.replicate (2 * k) ' ' ++ c :: cs ∧ c ≠ ' ' ∧
      before.count '{' = before.count '}' + k + (if c = '}' then 1 else 0) ∧
      (c = '}' ∨ ∃ name p, t.Declares k name p ∧
        c :: cs = name.toList ++ ':' :: ' ' :: firstLine p.pretty.toList) := by
  rw [Schema.pretty, Schema.render, String.toList_ofList] at htext
  obtain ⟨n, hn, k, c, cs, hline, hspace, hopened, hc⟩ :=
    (Schema.indents_of_worded h 0 []).lines before after htext
  rw [List.append_nil, Nat.zero_add] at hline
  exact ⟨k, c, cs, hline, hspace, by omega, hc⟩

/-- An optional array of objects, in which an optional object has no properties. -/
def bracketedTree : Schema :=
  { kind := .object
    properties := [("a", (Schema.array { kind := .object, properties :=
      [("b", (Schema.object []).asOptional), ("c", .array .any)] }).asOptional)] }

/-- Before the line that closes the object in the array three braces have been opened and one
has been closed. -/
theorem indentation_pretty_bracketedTree :
    (bracketedTree.Worded ∧ bracketedTree.pretty.toList =
      "\x7b\n  a: [\x7b\n    b: \x7b\x7d?\n    c: [any]".toList ++
        '\n' :: "  \x7d]?\n\x7d".toList) ∧
      ∃ k c cs, firstLine "  \x7d]?\n\x7d".toList = List.replicate (2 * k) ' ' ++ c :: cs ∧
        c ≠ ' ' ∧ 3 = 1 + k + (if c = '}' then 1 else 0) ∧
        (c = '}' ∨ ∃ name p, bracketedTree.Declares k name p ∧
          c :: cs = name.toList ++ ':' :: ' ' :: firstLine p.pretty.toList) := by
  have hletter : ∀ c, isWordStart c = true → Schema.IsWord (String.ofList [c]) := by
    intro c hc
    exact ⟨c, [], String.toList_ofList, hc, nofun⟩
  have hany : Worded (.array .any) := by
    refine .node nofun nofun fun _ t ht => ?_
    cases ht
    exact .node nofun nofun nofun
  have hobject : Worded { kind := .object, properties :=
      [("b", (Schema.object []).asOptional), ("c", .array .any)] } := by
    refine .node (fun _ => ?_) (fun _ => ?_) nofun
    · exact List.forall_mem_cons.mpr ⟨hletter 'b' rfl,
        List.forall_mem_singleton.mpr (hletter 'c' rfl)⟩
    · exact List.forall_mem_cons.mpr ⟨.node nofun nofun nofun,
        List.forall_mem_singleton.mpr hany⟩
  have hworded : bracketedTree.Worded := by
    refine .node (fun _ => List.forall_mem_singleton.mpr (hletter 'a' rfl))
      (fun _ => List.forall_mem_singleton.mpr (.node nofun nofun fun _ t ht => ?_)) nofun
    cases ht
    exact hobject
  have htext : bracketedTree.pretty.toList =
      "\x7b\n  a: [\x7b\n    b: \x7b\x7d?\n    c: [any]".toList ++
        '\n' :: "  \x7d]?\n\x7d".toList := by
    decide
  exact ⟨⟨hworded, htext⟩, indentation_pretty hworded htext⟩

end Jstn
