import Jstn.Kind

/-!
# How a value breaks the rule of a schema node

A violation is what is wrong with a value, without where it stands.  The rule of
a node about the kind of its value is `Kind.violation?`: the kinds have to agree,
and a null is fine where the node is an optional scalar.
-/

namespace Jstn

/-- What is wrong with a value. -/
inductive Violation
  /-- The value has another kind than its node. -/
  | wrongKind (expected found : Kind)
  /-- The value is null, and its node is a scalar that is not optional. -/
  | requiredNull (kind : Kind)
  /-- The node takes any value, which strict mode does not allow. -/
  | anyInStrict
  /-- The array has an item, and its node no item type. -/
  | untypedItem
  /-- The object has a property that its node does not declare. -/
  | undeclared (name : String)
  /-- The object lacks a property that its node requires. -/
  | missing (name : String)
deriving DecidableEq, Repr, Inhabited

/-- The text of a violation. -/
def Violation.message : Violation → String
  | wrongKind expected found => "expected " ++ expected.name ++ ", found " ++ found.name
  | requiredNull kind => "required " ++ kind.name ++ " is null"
  | anyInStrict => "`any` values are not accepted in strict mode"
  | untypedItem => "array has no declared item type and must be empty"
  | undeclared name => "undeclared property `" ++ name ++ "`"
  | missing name => "missing required property `" ++ name ++ "`"

namespace Kind

/-- Whether values of a kind stand for themselves and may be null if optional. -/
def isScalar : Kind → Bool
  | string | number | boolean => true
  | null | object | array | any => false

/-- What is wrong with a value of kind `found` at a node of kind `expected`, as
far as kinds tell. -/
def violation? (expected : Kind) (optional : Bool) (found : Kind) : Option Violation :=
  if expected = found then none
  else if found = null ∧ expected.isScalar then
    if optional then none else some (.requiredNull expected)
  else some (.wrongKind expected found)

end Kind

end Jstn
