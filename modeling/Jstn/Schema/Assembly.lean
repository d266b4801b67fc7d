import Jstn.Schema

/-!
# Putting schemas together

Schemas are built bottom up on a stack, in postfix order: a step takes the parts
it needs from the top and puts back what it makes of them.  A step that finds
too few schemas does nothing.

The stack begins empty, so whatever stands on it has been made by constructors,
edits and the schemas that were pushed.
-/

namespace Jstn

/-- A stack of schemas, the top first. -/
abbrev Assembly := List Schema

namespace Assembly

/-- One step of an assembly. -/
inductive Step
  /-- A finished schema goes on top. -/
  | push (t : Schema)
  /-- The top becomes the item type of an array. -/
  | array
  /-- The topmost schemas become the properties of an object.  The topmost has
  the last of the names. -/
  | object (names : List String)
  /-- The top becomes optional. -/
  | asOptional
  /-- The top's property of that name goes on top of it, if there is one. -/
  | property (name : String)
  /-- The top once more. -/
  | duplicate
  /-- The top goes. -/
  | drop
  /-- The two topmost change places. -/
  | swap
  /-- The top gets another kind and keeps all else. -/
  | setKind (kind : Kind)
  /-- The top gets another optional flag and keeps all else. -/
  | setOptional (optional : Bool)
  /-- The top becomes a property of the schema below it. -/
  | insert (name : String)
  /-- The top loses its property of that name. -/
  | erase (name : String)
  /-- The top becomes the item type of the schema below it. -/
  | setItems
  /-- The top loses its item type. -/
  | clearItems
deriving DecidableEq, Inhabited

/-- What a step makes of a stack, if the stack holds enough. -/
def Step.apply? : Step → Assembly → Option Assembly
  | push t, stack => some (t :: stack)
  | array, t :: stack => some (.array t :: stack)
  | object names, stack =>
      if names.length ≤ stack.length then
        some (.object (names.zip (stack.take names.length).reverse) :: stack.drop names.length)
      else none
  | asOptional, t :: stack => some (t.asOptional :: stack)
  | property name, t :: stack =>
      match t.property? name with
      | some child => some (child :: t :: stack)
      | none => some (t :: stack)
  | duplicate, t :: stack => some (t :: t :: stack)
  | drop, _ :: stack => some stack
  | swap, s :: t :: stack => some (t :: s :: stack)
  | setKind kind, t :: stack => some (t.withKind kind :: stack)
  | setOptional optional, t :: stack => some (t.withOptional optional :: stack)
  | insert name, child :: t :: stack => some (t.insert name child :: stack)
  | erase name, t :: stack => some (t.erase name :: stack)
  | setItems, child :: t :: stack => some (t.withItems (some child) :: stack)
  | clearItems, t :: stack => some (t.withItems none :: stack)
  | _, _ => none

/-- Whether the schema that a step looks at or edits has a property of the
step's name. -/
def Step.finds : Step → Assembly → Bool
  | property name, t :: _ => (t.property? name).isSome
  | insert name, _ :: t :: _ => (t.property? name).isSome
  | erase name, t :: _ => (t.property? name).isSome
  | _, _ => false

/-- Takes steps in turn, up to the first that finds too few schemas. -/
def run? (steps : List Step) (stack : Assembly) : Option Assembly :=
  steps.foldlM (fun stack step => step.apply? stack) stack

/-- Whether the two topmost schemas are equal, if there are two. -/
def topsEqual? : Assembly → Option Bool
  | s :: t :: _ => some (decide (s = t))
  | _ => none

example : run? [.push .string, .push .number, .object ["b", "a"]] [] =
    some [.object [("a", .number), ("b", .string)]] := by decide

end Assembly

end Jstn
