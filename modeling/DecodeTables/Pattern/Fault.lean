import DecodeTables.Location

/-!
# Faults of patterns

Why a pattern as written is no pattern, and where.
-/

namespace DecodeTables.Pattern

/-- What is wrong with a pattern. -/
inductive Fault.Kind where
  /-- A block has no elements. -/
  | emptyBlock
  /-- An element has an empty name. -/
  | emptyName
  /-- A block requires a field to equal two different values. -/
  | conflict
  /-- A table is an element of a block of which one element must hold. -/
  | tableInAny
deriving DecidableEq, Repr

/-- A fault of a pattern at `loc`. Its `subject` is the name of the field or table at fault, and is
empty where nothing has a name. -/
structure Fault where
  kind : Fault.Kind
  subject : String
  loc : Location
deriving DecidableEq, Repr

/-- The wording of a fault. -/
def Fault.message (fault : Fault) : String :=
  match fault.kind with
  | .emptyBlock => "pattern block has no terms"
  | .emptyName => "pattern term has an empty name"
  | .conflict => s!"field '{fault.subject}' is required to equal two different values"
  | .tableInAny => s!"table '{fault.subject}' cannot be referenced inside an '|' block"

end DecodeTables.Pattern
