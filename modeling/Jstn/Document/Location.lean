/-!
# Locations in a document

A location is the list of keys and indices that lead from the root of a document
to one of its values.
-/

namespace Jstn

/-- One step into a document. -/
inductive Segment
  /-- To the value of a member. -/
  | key (name : String)
  /-- To an item. -/
  | index (n : Nat)
deriving DecidableEq, Repr, Inhabited

/-- A way from the root to a value. -/
abbrev Location := List Segment

namespace Location

/-- The text of the steps after the first.  A key follows a point as it is, and
an index stands in brackets. -/
def renderMore : Location → String
  | [] => ""
  | .key name :: more => "." ++ name ++ renderMore more
  | .index n :: more => "[" ++ toString n ++ "]" ++ renderMore more

/-- The text of a location.  The root is a point. -/
def render : Location → String
  | [] => "."
  | .key name :: more => name ++ renderMore more
  | .index n :: more => "[" ++ toString n ++ "]" ++ renderMore more

example : render [] = "." := by decide
example : render [.key "a", .key "b", .index 1, .key "c"] = "a.b[1].c" := by decide

end Location

end Jstn
