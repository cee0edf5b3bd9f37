import DecodeTables.Export
import DecodeTables.FirstUse

/-!
# The semantic part of a constructor

The semantic part is a sequence of statements that may end by exporting a value. Elaboration keeps
every statement and finds out what is exported.
-/

namespace DecodeTables

namespace Execution

/-- What a statement does. -/
inductive Statement.Kind where
  | assign
  | build
  | branch
  | call
  | ret
  | declare
deriving DecidableEq, Repr

/-- A statement. The target of a `build` statement names an operand whose constructor runs there. -/
structure Statement where
  kind : Statement.Kind := .assign
  target : String := ""
  operands : List String := []
deriving DecidableEq, Repr

/-- The target of a `build` statement. -/
def Statement.built? (statement : Statement) : Option String :=
  if statement.kind = .build then some statement.target else none

/-- Where an exported value comes from. -/
inductive Source where
  | constant
  | temporary
  | varnode
  | dereference
deriving DecidableEq, Repr

/-- The kind of export that a value from some source is. -/
def Source.exportKind : Source → Export.Kind
  | constant => .const
  | temporary => .value
  | varnode => .reference
  | dereference => .reference

/-- The statement that exports a value. -/
structure ExportStatement where
  source : Source
  width : Width
deriving DecidableEq, Repr

/-- What a statement exports. -/
def ExportStatement.exported (statement : ExportStatement) : Export :=
  .sized statement.source.exportKind statement.width

/-- The semantic part of a constructor as written. -/
structure Written where
  statements : List Statement := []
  exportStatement? : Option ExportStatement := none
deriving DecidableEq, Repr

end Execution

/-- The semantic part of a constructor. -/
structure Execution where
  statements : List Execution.Statement := []
  exported : Export := .none
deriving DecidableEq, Repr

namespace Execution

/-- Elaborates a semantic part. -/
def elaborate (written : Written) : Execution where
  statements := written.statements
  exported := (written.exportStatement?.map ExportStatement.exported).getD .none

/-- The targets of `build` statements, in order of first use. -/
def builds (execution : Execution) : List String :=
  firstUses (execution.statements.filterMap Statement.built?)

/-- Says whether the last statement leaves the instruction. -/
def endsInBranch (execution : Execution) : Bool :=
  execution.statements.getLast?.any fun last => last.kind == .branch || last.kind == .ret

/-- What can be wrong with a semantic part. -/
inductive Fault.Kind where
  /-- A branch goes to a label that is not defined. -/
  | undefinedLabel
  /-- A statement uses a varnode that is not known. -/
  | unknownVarnode
  /-- The width of an exported value is not known. -/
  | exportWidthUnknown
deriving DecidableEq, Repr

/-- A fault of a semantic part. Its `subject` is the name at fault. -/
structure Fault where
  kind : Fault.Kind
  subject : String
deriving DecidableEq, Repr

/-- The wording of a fault. -/
def Fault.message (fault : Fault) : String :=
  match fault.kind with
  | .undefinedLabel => s!"execution branches to undefined label '{fault.subject}'"
  | .unknownVarnode => s!"execution references unknown varnode '{fault.subject}'"
  | .exportWidthUnknown => s!"width of exported '{fault.subject}' cannot be determined"

end Execution

end DecodeTables
