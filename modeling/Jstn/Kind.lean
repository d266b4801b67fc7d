/-!
# Kinds of schema nodes

A schema node has one of seven kinds.  Five are written as a keyword.  An object
and an array are written with brackets, so they have a name but no keyword.
-/

namespace Jstn

/-- What a schema node describes. -/
inductive Kind
  | string
  | number
  | boolean
  | null
  | object
  | array
  /-- Any well-formed JSON value.  It is accepted in lenient mode only. -/
  | any
deriving DecidableEq, Repr, Inhabited

namespace Kind

/-- The kinds, in the order in which messages list them. -/
def all : List Kind := [string, number, boolean, null, object, array, any]

/-- The name of a kind, as messages show it. -/
def name : Kind → String
  | string => "string"
  | number => "number"
  | boolean => "boolean"
  | null => "null"
  | object => "object"
  | array => "array"
  | any => "any"

/-- The keyword a kind is written with in schema text. -/
def keyword? : Kind → Option String
  | object => none
  | array => none
  | kind => some kind.name

/-- The kind of a name.  Names are matched exactly. -/
def ofName? (text : String) : Option Kind := all.find? fun kind => kind.name = text

theorem ofName?_name (kind : Kind) : ofName? kind.name = some kind := by cases kind <;> decide

end Kind

end Jstn
