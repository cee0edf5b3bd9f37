import DecodeTables.Rejection

/-!
# Constructors

A constructor describes some of the instructions of a table: which words it matches, how it is
shown, what is computed to show it, and what it does. A constructor without a semantic part exports
nothing.
-/

namespace DecodeTables

/-- A constructor as written. -/
structure Constructor.Written where
  pattern : Pattern.Written := []
  display : Display.Written := []
  disassembly : Disassembly.Written := []
  execution? : Option Execution.Written := none
deriving DecidableEq, Repr

/-- An elaborated constructor at `loc`. -/
structure Constructor where
  loc : Location
  pattern : Pattern
  display : Display
  disassembly : Disassembly
  execution? : Option Execution
deriving DecidableEq, Repr

namespace Constructor

/-- Elaborates the constructor at `loc`. It is rejected if its pattern is at fault. -/
def elaborate (written : Written) (loc : Location) : Except Rejection Constructor := do
  let pattern ← Rejection.attach loc ((Pattern.elaborate written.pattern loc).mapError .pattern)
  return {
    loc
    pattern
    display := .elaborate written.display
    disassembly := .elaborate written.disassembly
    execution? := written.execution?.map Execution.elaborate }

/-- What a constructor exports. -/
def exported (constructor : Constructor) : Export :=
  (constructor.execution?.map Execution.exported).getD .none

/-- The operands that a constructor builds, in order of first use. -/
def builds (constructor : Constructor) : List String :=
  (constructor.execution?.map Execution.builds).getD []

end Constructor

end DecodeTables
