import DecodeTables.Catalog.Undefined
import DecodeTables.Diagnostic.Log

/-!
# Elaboration of a specification

An `Elaboration` registers the constructors of a specification one after another. A constructor that
is rejected is reported and left out, and the elaboration goes on. When all are registered,
`Elaboration.finish` reports tables that are needed and have no constructors. What elaborations
work on, the catalog and the log, is a `Workspace`, which other elaborations may have used before.
-/

namespace DecodeTables

/-- What an elaboration works on. With `traceAll` every table and every elaboration is traced. -/
structure Workspace where
  catalog : Catalog
  log : Log := {}
  traceAll : Bool := false

/-- The choices made for an elaboration: the name of the root, whether it is traced, and whether
the root has to have constructors. -/
structure Elaboration.Options where
  rootName : String := defaultRootName
  isTraced : Bool := false
  requiresRoot : Bool := true
deriving DecidableEq, Repr

/-- An elaboration, with the number of constructors it has rejected. -/
structure Elaboration where
  options : Elaboration.Options := {}
  rejected : Nat := 0
deriving DecidableEq, Repr

namespace Elaboration

/-- What a step of an elaboration leads to: the elaboration and its workspace afterwards, the answer
to whoever asked for the step, and what the trace is told. -/
structure Outcome (α : Type) where
  elaboration : Elaboration
  workspace : Workspace
  answer : α
  trace : List Trace.Record := []

/-- Begins an elaboration. The catalog takes over the name of the root and whether to trace. -/
def start (options : Options) (workspace : Workspace) : Outcome Unit where
  elaboration := { options }
  workspace := { workspace with
    catalog := (workspace.catalog.setRootName options.rootName).setTraced options.isTraced }
  answer := ()

/-- Registers an entry, or reports why it is rejected. Answers whether it was registered. -/
def add (elaboration : Elaboration) (workspace : Workspace) (entry : Catalog.Entry) :
    Outcome Bool :=
  let (catalog, attempt) := workspace.catalog.register workspace.traceAll entry
  match attempt.outcome with
  | .ok () => ⟨elaboration, { workspace with catalog }, true, attempt.trace⟩
  | .error rejection =>
    ⟨{ elaboration with rejected := elaboration.rejected + 1 },
      { workspace with catalog, log := workspace.log.report rejection.diagnostic },
      false, attempt.trace⟩

/-- Registers entries in order. Answers how many were rejected. -/
def addAll (elaboration : Elaboration) (workspace : Workspace) :
    List Catalog.Entry → Outcome Nat
  | [] => ⟨elaboration, workspace, 0, []⟩
  | entry :: entries =>
    let first := elaboration.add workspace entry
    let others := first.elaboration.addAll first.workspace entries
    { others with
      answer := (if first.answer then 0 else 1) + others.answer
      trace := first.trace ++ others.trace }

/-- The errors that are left when all constructors are registered. -/
def errors (elaboration : Elaboration) (catalog : Catalog) : List Diagnostic :=
  (if elaboration.options.requiresRoot then catalog.undefinedRoot else []) ++
    catalog.undefinedTables

/-- Reports the errors that are left. Answers whether no error was ever reported. -/
def finish (elaboration : Elaboration) (workspace : Workspace) : Outcome Bool :=
  let log := workspace.log.reportAll (elaboration.errors workspace.catalog)
  let record := .finished workspace.catalog.size elaboration.rejected log.errors
  { elaboration
    workspace := { workspace with log }
    answer := log.errors == 0
    trace := if elaboration.options.isTraced || workspace.traceAll then [record] else [] }

end Elaboration

end DecodeTables
