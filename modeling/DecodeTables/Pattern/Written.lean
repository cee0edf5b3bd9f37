import DecodeTables.Location

/-!
# Patterns as written

The pattern of a constructor is a sequence of blocks. A block joins elements that must all hold, or
of which one must hold. An element is a term at some place: a constraint on a field, a bare field,
or a table whose constructors continue the pattern.
-/

namespace DecodeTables.Pattern

/-- How the elements of a block are joined: all of them hold (`&`), or one of them (`|`). -/
inductive Connective where
  | all
  | any
deriving DecidableEq, Repr

/-- The comparison of a field with a value. -/
inductive Comparison where
  | eq
  | ne
  | lt
  | gt
  | le
  | ge
deriving DecidableEq, Repr

/-- The sign of a comparison. -/
def Comparison.text : Comparison → String
  | eq => "="
  | ne => "!="
  | lt => "<"
  | gt => ">"
  | le => "<="
  | ge => ">="

/-- A field compared with a value of 64 bits. -/
structure Constraint where
  field : String
  comparison : Comparison
  value : UInt64
deriving DecidableEq, Repr

/-- Says whether a constraint fixes the value of its field. -/
def Constraint.isEquality (constraint : Constraint) : Bool :=
  constraint.comparison == .eq

/-- What an element of a block asks for. -/
inductive Term where
  | constraint (constraint : Constraint)
  | field (name : String)
  | subTable (name : String)
deriving DecidableEq, Repr

/-- The name of the field or the table of a term. -/
def Term.name : Term → String
  | constraint comparison => comparison.field
  | field name => name
  | subTable name => name

/-- A term with its place. -/
structure Element where
  term : Term
  loc : Location := .unknown
deriving DecidableEq, Repr

/-- A block as written. -/
structure WrittenBlock where
  connective : Connective := .all
  elements : List Element := []
  loc : Location := .unknown
deriving DecidableEq, Repr

/-- A pattern as written. -/
abbrev Written := List WrittenBlock

end DecodeTables.Pattern
