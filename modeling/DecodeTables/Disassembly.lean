import DecodeTables.Disassembly.Expr
import DecodeTables.FirstUse

/-!
# Disassembly actions

The disassembly actions of a constructor assign names, or set context variables, while an
instruction is shown. Elaboration keeps every action and turns its expression into a postfix
program.
-/

namespace DecodeTables

namespace Disassembly

/-- What an action does: assign its target, or set a context variable from it. -/
inductive Action.Kind where
  | assign
  | globalSet
deriving DecidableEq, Repr

/-- An action as written. -/
structure WrittenAction where
  kind : Action.Kind := .assign
  target : String := ""
  contextVar : String := ""
  value : Expr := .missing
deriving DecidableEq, Repr

/-- An action whose expression is a postfix program. -/
structure Action where
  kind : Action.Kind
  target : String
  contextVar : String
  program : List Item
deriving DecidableEq, Repr

/-- The disassembly actions of a constructor as written. -/
abbrev Written := List WrittenAction

/-- Elaborates an action. -/
def Action.elaborate (written : WrittenAction) : Action where
  kind := written.kind
  target := written.target
  contextVar := written.contextVar
  program := written.value.program

/-- The name that an action assigns, if it assigns one. -/
def Action.assigned? (action : Action) : Option String :=
  if action.kind = .assign then some action.target else none

end Disassembly

/-- The disassembly actions of a constructor. -/
structure Disassembly where
  actions : List Disassembly.Action := []
deriving DecidableEq, Repr

namespace Disassembly

/-- Elaborates disassembly actions. -/
def elaborate (written : Written) : Disassembly where
  actions := written.map Action.elaborate

/-- The assigned names, in order of first use. -/
def assigned (disassembly : Disassembly) : List String :=
  firstUses (disassembly.actions.filterMap Action.assigned?)

/-- Says whether there are no actions. -/
def isEmpty (disassembly : Disassembly) : Bool :=
  disassembly.actions.isEmpty

/-- What can be wrong with disassembly actions. -/
inductive Fault.Kind where
  /-- An action assigns a name that is not known. -/
  | unknownTarget
  /-- An action assigns a field of the instruction word. -/
  | assignToField
deriving DecidableEq, Repr

/-- A fault of disassembly actions. Its `subject` is the name at fault. -/
structure Fault where
  kind : Fault.Kind
  subject : String
deriving DecidableEq, Repr

/-- The wording of a fault. -/
def Fault.message (fault : Fault) : String :=
  match fault.kind with
  | .unknownTarget => s!"disassembly assigns unknown target '{fault.subject}'"
  | .assignToField => s!"disassembly cannot assign token field '{fault.subject}'"

end Disassembly

end DecodeTables
