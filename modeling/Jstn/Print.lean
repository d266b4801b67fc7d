import Jstn.Schema

/-!
# Writing schema text

A schema is written in one of two formats.  The canonical one has no blanks and
no line breaks, and properties are joined by `;`.  The pretty one puts every
property on a line of its own, two spaces further in than the object around it.
Arrays do not indent.

Properties are written in the order of their names, so equal trees have equal
text.  Parts of a node that its kind does not use are not written.
-/

namespace Jstn

/-- How schema text is laid out. -/
inductive Format
  /-- No blanks, and properties joined by `;`. -/
  | canonical
  /-- One property a line, indented by the depth of objects. -/
  | pretty
deriving DecidableEq, Repr

/-- Text is canonical unless asked otherwise. -/
instance : Inhabited Format := ⟨.canonical⟩

/-- The indentation of a line inside `depth` objects. -/
def indentation (depth : Nat) : List Char := List.replicate (2 * depth) ' '

namespace Format

/-- The text of an object inside `depth` others, from the names of its
properties and the texts of their types. -/
def object (format : Format) (depth : Nat) : List (String × List Char) → List Char
  | [] => ['{', '}']
  | members =>
      match format with
      | canonical =>
          '{' :: (List.intercalate [';'] (members.map fun m => m.1.toList ++ ':' :: m.2) ++ ['}'])
      | pretty =>
          '{' :: '\n' ::
            (members.flatMap (fun m =>
                indentation (depth + 1) ++ (m.1.toList ++ ':' :: ' ' :: (m.2 ++ ['\n'])))
              ++ (indentation depth ++ ['}']))

end Format

namespace Schema

mutual

/-- The text of a node inside `depth` objects. -/
def chars (format : Format) (depth : Nat) : Schema → List Char
  | ⟨kind, optional, properties, items⟩ =>
      let mark := if optional then ['?'] else []
      match kind with
      | .array => '[' :: (itemChars format depth items ++ ']' :: mark)
      | .object => format.object depth (memberChars format (depth + 1) properties) ++ mark
      | _ => kind.name.toList ++ mark

/-- The text of an item type. -/
def itemChars (format : Format) (depth : Nat) : Option Schema → List Char
  | none => []
  | some t => chars format depth t

/-- The names of properties and the texts of their types. -/
def memberChars (format : Format) (depth : Nat) :
    List (String × Schema) → List (String × List Char)
  | [] => []
  | (name, t) :: ps => (name, chars format depth t) :: memberChars format depth ps

end

/-- The text of a schema. -/
def render (format : Format) (t : Schema) : String := String.ofList (t.chars format 0)

/-- The text of a schema without any blanks. -/
def canonical (t : Schema) : String := t.render .canonical

/-- The text of a schema with one property a line. -/
def pretty (t : Schema) : String := t.render .pretty

example :
    (object [("b", array string), ("a", any.asOptional)]).canonical
      = "\x7ba:any?;b:[string]\x7d" := by
  decide
example : (array (object [("a", object [])])).pretty = "[\x7b\n  a: \x7b\x7d\n\x7d]" := by decide

end Schema

end Jstn
