import Jstn.Document.Location
import Jstn.Document.Violation
import Jstn.Json.Fault
import Jstn.Json.Position

/-!
# Why a document is rejected

There are four reasons.  The document is blank but a value is required.  A value
breaks the rule of its node.  The text is not JSON.  More text follows the value.
The wording is in `Rejection.message` alone.
-/

namespace Jstn

open Json (Fault Position)

/-- Why a document is rejected. -/
inductive Rejection
  /-- The document is blank, and the root is not optional. -/
  | missingValue
  /-- The value at a location breaks the rule of its node.  A violation at a root
  that is not looked into has no position. -/
  | mismatch (location : Location) (violation : Violation) (position : Option Position)
  /-- The text is not JSON. -/
  | malformed (fault : Fault) (position : Position)
  /-- More text follows the root value. -/
  | trailingData (position : Position)
deriving DecidableEq, Repr, Inhabited

namespace Rejection

/-- The end of a message that may have a position. -/
def positionSuffix : Option Position → String
  | some p => p.suffix
  | none => ""

/-- The text of a rejection. -/
def message : Rejection → String
  | missingValue => "document is empty but the schema requires a value"
  | mismatch location violation position =>
      "mismatch at " ++ location.render ++ ": " ++ violation.message ++ positionSuffix position
  | malformed fault position => "malformed JSON: " ++ fault.message ++ position.suffix
  | trailingData position =>
      "trailing data after the root value at line " ++ toString position.line ++ ", column "
        ++ toString position.column

end Rejection

end Jstn
