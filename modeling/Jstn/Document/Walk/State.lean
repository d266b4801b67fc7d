import Jstn.Document.Rejection
import Jstn.Json.Skip
import Jstn.Json.Watch
import Jstn.Schema

/-!
# The state of a walk

The walk along a document holds the chain of arrays and objects it is in, with
the schema nodes of each (`Frame`), and what is due inside them (`Task`).  A byte
moves it on or ends it (`Reply`).

A violation is told with the location of the value and with the way in which it
gets its position (`Ending`), which may depend on bytes that are still unread.

A walk goes in one of two modes, which it keeps (`Mode`).
-/

namespace Jstn

open Json (Container Cursor Fault Position Skip Watch)

/-- How undeclared properties and `any` nodes are treated. -/
inductive Mode
  /-- Undeclared properties are fine and `any` nodes take every value. -/
  | lenient
  /-- Undeclared properties and values at `any` nodes are violations. -/
  | strict
deriving DecidableEq, Repr

/-- Validation is lenient unless asked otherwise. -/
instance : Inhabited Mode := ⟨.lenient⟩

namespace Walk

/-- A visited container with an entry that is being read. -/
inductive Frame
  /-- An array, the type of its items and the index of the item. -/
  | array (items : Option Schema) (index : Nat)
  /-- An object, its declared properties, the names of the members before, and the
  name of the member. -/
  | object (properties : List (String × Schema)) (seen : List String) (name : String)
deriving DecidableEq, Inhabited

namespace Frame

/-- The container of a frame. -/
def container : Frame → Container
  | array .. => .array
  | object .. => .object

/-- The step from a container to its entry. -/
def segment : Frame → Segment
  | array _ index => .index index
  | object _ _ name => .key name

end Frame

/-- The location of what is being read inside frames, innermost first. -/
def location (outer : List Frame) : Location := (outer.map Frame.segment).reverse

/-! ## States -/

/-- Why a value is skipped. -/
inductive Purpose
  /-- Nothing is asked of it. -/
  | ignore
  /-- It is an item of an array without an item type. -/
  | untypedItem
  /-- It stands at a scalar node. -/
  | scalar (kind : Kind) (optional : Bool) (first : UInt8) (watch : Watch)
deriving DecidableEq, Inhabited

/-- What is due inside the frames. -/
inductive Task
  /-- A value at a node. -/
  | value (node : Schema)
  /-- More of a value that is skipped. -/
  | skip (purpose : Purpose) (s : Skip)
  /-- More of a word at a node that describes a container. -/
  | word (node : Schema) (found : Kind) (due : List UInt8)
  /-- More of a number at a node that describes a container. -/
  | number (node : Schema) (s : Json.Number.State)
  /-- More of a string at a node that describes a container. -/
  | string (node : Schema) (s : Json.Literal.Decode)
  /-- What follows a value: the next entry of the innermost frame, its end, or the
  end of the document. -/
  | ended
  /-- The first item of an array, or its end. -/
  | firstItem (items : Option Schema)
  /-- An item after a comma. -/
  | nextItem (items : Option Schema) (index : Nat)
  /-- The first key of an object, or its end. -/
  | firstKey (properties : List (String × Schema))
  /-- A key after a comma. -/
  | nextKey (properties : List (String × Schema)) (seen : List String)
  /-- More of a key. -/
  | key (properties : List (String × Schema)) (seen : List String) (s : Json.Literal.Decode)
  /-- The colon after the key `name`, whose value belongs to `node`. -/
  | colon (properties : List (String × Schema)) (seen : List String) (name : String)
      (node : Schema)
deriving DecidableEq, Inhabited

/-- A state of the walk. -/
structure State where
  /-- The visited containers around what is due, innermost first.  A container
  whose entry has not begun is not among them. -/
  outer : List Frame
  /-- What is due. -/
  task : Task
deriving DecidableEq, Inhabited

/-- How a violation gets its position. -/
inductive Ending
  /-- It has none. -/
  | nowhere
  /-- It is placed where the walk stands. -/
  | here
  /-- It is placed where an attempt to end a container leaves the walk. -/
  | container (c : Container)
deriving DecidableEq, Repr, Inhabited

/-- The position of a violation found at a cursor. -/
def Ending.place (ending : Ending) (c : Cursor) : Option Position :=
  match ending with
  | nowhere => none
  | here => some c.position
  | container k => some (k.tryEnd c).position

/-- A violation at a location. -/
structure Breach where
  /-- Where the value stands in the document. -/
  location : Location
  /-- What is wrong with it. -/
  violation : Violation
  /-- How the violation gets its position. -/
  ending : Ending
deriving DecidableEq, Repr, Inhabited

/-- What a byte does to the walk. -/
inductive Reply
  /-- The byte is taken and the walk goes on. -/
  | more (s : State)
  /-- The text is not JSON. -/
  | fault (fault : Fault) (position : Position)
  /-- A value breaks the rule of its node.  `taken` tells whether the byte was
  taken before that. -/
  | breach (breach : Breach) (taken : Bool)
  /-- The byte follows the whole root value. -/
  | trailing
deriving DecidableEq, Inhabited

end Walk

end Jstn
