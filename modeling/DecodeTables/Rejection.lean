import DecodeTables.Diagnostic
import DecodeTables.Disassembly
import DecodeTables.Display
import DecodeTables.Execution
import DecodeTables.Pattern

/-!
# Why constructors are rejected

A constructor that does not get into its table is rejected for a `Rejection.Cause`: the table has
no valid name, its exports do not fit, or one of its parts is at fault. A rejection also has the
place of the constructor, and is reported as an error there.
-/

namespace DecodeTables

/-- Why a constructor is rejected. -/
inductive Rejection.Cause where
  | invalidTableName (name : String)
  | exportMismatch (mismatch : Export.Mismatch)
  | pattern (fault : Pattern.Fault)
  | disassembly (fault : Disassembly.Fault)
  | display (fault : Display.Fault)
  | execution (fault : Execution.Fault)
deriving DecidableEq, Repr

/-- The wording of a cause. -/
def Rejection.Cause.message : Rejection.Cause → String
  | invalidTableName name => s!"constructor cannot be inserted into invalid table name '{name}'"
  | exportMismatch ⟨expected, found⟩ =>
    s!"constructor export {found.text} does not match table export {expected.text}"
  | pattern fault => s!"pattern error: {fault.message}"
  | disassembly fault => s!"disassembly error: {fault.message}"
  | display fault => s!"display error: {fault.message}"
  | execution fault => s!"execution error: {fault.message}"

/-- The constructor at `loc` is rejected for `cause`. -/
structure Rejection where
  loc : Location
  cause : Rejection.Cause
deriving DecidableEq, Repr

namespace Rejection

/-- The wording of a rejection. -/
def message (rejection : Rejection) : String :=
  rejection.cause.message

/-- The error that reports a rejection. -/
def diagnostic (rejection : Rejection) : Diagnostic :=
  .error rejection.loc rejection.message

/-- Gives the error of `result`, if it is one, to the constructor at `loc`. -/
def attach {α : Type} (loc : Location) (result : Except Cause α) : Except Rejection α :=
  result.mapError (Rejection.mk loc)

end Rejection

end DecodeTables
