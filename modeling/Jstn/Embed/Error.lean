import Jstn.Json.Container
import Jstn.Json.Number
import Jstn.Parse.Error
import Jstn.Text.Quoted

/-!
# Errors of embedded schemas

JSON text that should hold a schema, a kind or an endpoint is refused for one of
two reasons.  It is not JSON, which is a fault.  Or it is, but does not hold what
is asked for.

A problem of the second sort is placed at once if the wrong type of value is
found.  Otherwise it floats: it has no position until the reader of a container
around it, if there is one, places it after an attempt to end the container.
-/

namespace Jstn

open Json (Container Cursor Fault Position)

namespace Embed

/-- A value where another type of value is asked for. -/
inductive Foreign
  | null
  | boolean (b : Bool)
  | number (value : Json.Number.Value)
  | string (text : String)
  | sequence
  | map
deriving DecidableEq, Repr, Inhabited

/-- How messages name a value. -/
def Foreign.describe : Foreign → String
  | null => "null"
  | boolean true => "boolean `true`"
  | boolean false => "boolean `false`"
  | number value => value.describe
  | string text => "string " ++ Text.quoted text
  | sequence => "sequence"
  | map => "map"

/-- What a reader asks for. -/
inductive Target
  | string
  | unit
  | endpoint
deriving DecidableEq, Repr, Inhabited

/-- How messages name what a reader asks for. -/
def Target.describe : Target → String
  | string => "a string"
  | unit => "unit"
  | endpoint => "struct Endpoint"

/-- Why a reader refuses a text. -/
inductive Problem
  /-- The text is not JSON. -/
  | fault (fault : Fault)
  /-- A value has another type than the one asked for. -/
  | wrongType (found : Foreign) (target : Target)
  /-- A string is not the text of a schema. -/
  | schema (error : ParseError)
  /-- A field is not there. -/
  | missingField (name : String)
  /-- A field is there twice. -/
  | duplicateField (name : String)
  /-- An endpoint is written as a list that is too short. -/
  | tooShort (length : Nat)
  /-- A name is not that of a kind. -/
  | unknownKind (name : String)
deriving DecidableEq, Repr, Inhabited

/-- The text of a problem. -/
def Problem.message : Problem → String
  | fault f => f.message
  | wrongType found target =>
      "invalid type: " ++ found.describe ++ ", expected " ++ target.describe
  | schema error => error.message
  | missingField name => "missing field `" ++ name ++ "`"
  | duplicateField name => "duplicate field `" ++ name ++ "`"
  | tooShort length =>
      "invalid length " ++ toString length ++ ", expected struct Endpoint with 3 elements"
  | unknownKind name =>
      "unknown variant `" ++ name ++ "`, expected one of "
        ++ ", ".intercalate (Kind.all.map fun kind => "`" ++ kind.name ++ "`")

/-- A class of problems. -/
inductive Category
  /-- The text is not JSON. -/
  | syntactic
  /-- The text is JSON and does not hold what is asked for. -/
  | data
  /-- The text ends too early. -/
  | ending
deriving DecidableEq, Repr, Inhabited

/-- The class of a problem. -/
def Problem.category : Problem → Category
  | fault f => if f.isEnd then .ending else .syntactic
  | _ => .data

/-- Why a whole text is refused, and where. -/
structure Error where
  /-- What is wrong. -/
  problem : Problem
  /-- Where, if that is known. -/
  position : Option Position
deriving DecidableEq, Repr, Inhabited

/-- The text of an error. -/
def Error.message (e : Error) : String :=
  e.problem.message ++
    match e.position with
    | some p => p.suffix
    | none => ""

/-- Why a reader gives up on the way. -/
inductive Failure
  /-- The problem has a position. -/
  | placed (problem : Problem) (position : Position)
  /-- The problem has none yet, and the reader stands at a cursor. -/
  | floating (problem : Problem) (c : Cursor)
deriving DecidableEq, Inhabited

namespace Failure

/-- A fault as a failure. -/
def ofFault (e : Fault × Position) : Failure := placed (.fault e.1) e.2

/-- The failure seen from outside a container. -/
def leave (container : Container) : Failure → Failure
  | placed problem position => placed problem position
  | floating problem c => placed problem (container.tryEnd c).position

/-- The failure of a whole text. -/
def toError : Failure → Error
  | placed problem position => ⟨problem, some position⟩
  | floating problem _ => ⟨problem, none⟩

end Failure

end Embed

end Jstn
