import DecodeTables.Export

/-!
# The trace of an elaboration

A trace tells what became of each constructor, and how an elaboration ended. Each record is one
line, which begins with the channel it belongs to.
-/

namespace DecodeTables.Trace

/-- A line of a trace. -/
def line (channel message : String) : String :=
  s!"[{channel}] {message}\n"

/-- Something that a trace tells. -/
inductive Record where
  /-- The table called `table` took in a constructor; it now has `size` of them. -/
  | accepted (table : String) (size : Nat) (exported : Export)
  /-- The table called `table` rejected a constructor. -/
  | rejected (table : String) (message : String)
  /-- An elaboration came to its end. -/
  | finished (tables rejected errors : Nat)
deriving DecidableEq, Repr

namespace Record

/-- The channel that a record belongs to. -/
def channel : Record → String
  | accepted .. => "table"
  | rejected .. => "table"
  | finished .. => "elab"

/-- The wording of a record. -/
def message : Record → String
  | accepted table size exported => s!"{table} +ctor #{size} export={exported.text}"
  | rejected table message => s!"{table} rejected: {message}"
  | finished tables failures errors =>
    s!"{tables} tables, {failures} rejected constructors, {errors} errors"

/-- The line of a record. -/
def text (record : Record) : String :=
  line record.channel record.message

end Record

/-- The lines of a trace. -/
def text (records : List Record) : String :=
  String.join (records.map Record.text)

/-- Says whether the setting of the environment asks for a trace. Any text does that is not empty,
and a text ends at the null character. -/
def isRequested (setting? : Option String) : Bool :=
  (setting?.bind (·.toList.head?)).any (· != '\x00')

end DecodeTables.Trace
