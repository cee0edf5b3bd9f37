import DecodeTables.Constructor
import DecodeTables.Interner
import DecodeTables.Table.Name
import DecodeTables.Trace

/-!
# Tables of constructors

A table collects constructors that can stand in one place of an instruction. `Table.register` takes
one more constructor in, or rejects it and leaves the table as it is: first the name of the table
is checked, then the constructor is elaborated, then its export is joined with that of the table.
`Table.attempt` also tells the trace what happened.
-/

namespace DecodeTables

/-- A table of constructors, with the name that would make it the root. -/
structure Table where
  symbol : Symbol
  name : String
  rootName : String
  constructors : List Constructor := []
  exported : Export := .none
  isTraced : Bool := false
deriving DecidableEq, Repr

namespace Table

/-- A table without constructors, as it is when its name is first used. -/
def newEmpty (symbol : Symbol) (name rootName : String) : Table where
  symbol := symbol
  name := name
  rootName := rootName

/-- Says whether a table is the root, with which the decoding of an instruction begins. -/
def isRoot (table : Table) : Bool :=
  table.name == table.rootName

/-- The number of constructors. -/
def size (table : Table) : Nat :=
  table.constructors.length

/-- Says whether a table has no constructors. -/
def isEmpty (table : Table) : Bool :=
  table.constructors.isEmpty

/-- Takes the constructor at `loc` in at the end of a table, unless it is rejected. -/
def register (table : Table) (written : Constructor.Written) (loc : Location) :
    Except Rejection Table := do
  if !isValidName table.name then
    throw ⟨loc, .invalidTableName table.name⟩
  let constructor ← Constructor.elaborate written loc
  let exported ← Rejection.attach loc <|
    (Export.extend (!table.isEmpty) table.exported constructor.exported).mapError .exportMismatch
  return { table with constructors := table.constructors ++ [constructor], exported }

/-- What an attempt to register a constructor came to: the table afterwards, whether the constructor
was rejected, and what the trace is told. -/
structure Attempt where
  table : Table
  outcome : Except Rejection Unit
  trace : List Trace.Record

/-- What the trace is told about the outcome of a registration into a table. -/
def record (table : Table) : Except Rejection Table → Trace.Record
  | .ok grown => .accepted grown.name grown.size grown.exported
  | .error rejection => .rejected table.name rejection.message

/-- Attempts to register the constructor at `loc`. The trace is told if it is wanted for this table
or, by `traceAll`, for every table. -/
def attempt (traceAll : Bool) (table : Table) (written : Constructor.Written) (loc : Location) :
    Attempt :=
  let result := table.register written loc
  { table := result.toOption.getD table
    outcome := result.map fun _ => ()
    trace := if table.isTraced || traceAll then [table.record result] else [] }

end Table

end DecodeTables
