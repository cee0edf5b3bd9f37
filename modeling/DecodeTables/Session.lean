import DecodeTables.Elaboration

/-!
# Sessions

A session works on the files, the tables and the diagnostics of one specification by commands, one
after another. Commands that need an elaboration begin one with the usual options if there is none.
`Session.step` carries out a command and `Session.run` a sequence of commands.
-/

namespace DecodeTables

/-- The files of a specification, the workspace, and the current elaboration if there is one. -/
structure Session where
  files : SourceFiles := {}
  workspace : Workspace
  elaboration? : Option Elaboration := none

namespace Session

/-- What a session can be told to do. -/
inductive Command where
  /-- Number the file at `path`. -/
  | addFile (path : String)
  /-- Look up the path of a file. -/
  | path (file : Nat)
  /-- Begin an elaboration, which takes the place of the current one. -/
  | start (options : Elaboration.Options)
  /-- Number the table called `table`, and create it if it is not there. -/
  | ensure (table : String)
  /-- Look up the number of the table called `table`. -/
  | find (table : String)
  /-- Look up the root. -/
  | root
  /-- Give the root another name. -/
  | setRootName (name : String)
  /-- Trace all tables, or stop tracing them. -/
  | setTraced (isTraced : Bool)
  /-- Register a constructor without an elaboration, so that a rejection is not reported. -/
  | register (entry : Catalog.Entry)
  /-- Register a constructor. -/
  | add (entry : Catalog.Entry)
  /-- Register constructors in order. -/
  | addAll (entries : List Catalog.Entry)
  /-- End the elaboration of all that was registered. -/
  | finish
  /-- Report a diagnostic. -/
  | report (diagnostic : Diagnostic)
  /-- Show the diagnostics, with their places if `withFiles` says so. -/
  | print (withFiles : Bool)
  /-- List the diagnostics. -/
  | diagnostics
  /-- List the constructors of the table called `table`. -/
  | constructors (table : String)
deriving DecidableEq, Repr

/-- What a session answers to a command. -/
inductive Answer where
  | done
  | file (id : Nat)
  | path (path? : Option String)
  | table (id? : Option Nat)
  | root (id? : Option Nat) (name : String)
  | registered (outcome : Except Rejection Unit)
  | verdict (holds : Bool)
  | rejected (count : Nat)
  | text (text : String)
  | diagnostics (diagnostics : List Diagnostic)
  | constructors (constructors? : Option (List Constructor))

/-- The session afterwards, the answer, and what the trace is told. -/
structure Reply where
  session : Session
  answer : Answer
  trace : List Trace.Record := []

/-- The session at its beginning. -/
def begin (rootName : String) (traceAll : Bool) : Session where
  workspace := { catalog := .empty rootName, traceAll }

/-- The catalog of the workspace. -/
def catalog (session : Session) : Catalog :=
  session.workspace.catalog

/-- The log of the workspace. -/
def log (session : Session) : Log :=
  session.workspace.log

/-- The session with another catalog. -/
def withCatalog (session : Session) (catalog : Catalog) : Session :=
  { session with workspace := { session.workspace with catalog } }

/-- The session after a step of its elaboration. -/
def afterStep {α : Type} (session : Session) (outcome : Elaboration.Outcome α)
    (answer : α → Answer) : Reply where
  session :=
    { session with workspace := outcome.workspace, elaboration? := some outcome.elaboration }
  answer := answer outcome.answer
  trace := outcome.trace

/-- Carries out a step of the current elaboration, or of a new one if there is none. -/
def elaborating {α : Type} (session : Session) (answer : α → Answer)
    (step : Elaboration → Workspace → Elaboration.Outcome α) : Reply :=
  match session.elaboration? with
  | some elaboration => session.afterStep (step elaboration session.workspace) answer
  | none =>
    let begun := Elaboration.start {} session.workspace
    session.afterStep (step begun.elaboration begun.workspace) answer

/-- Carries out a command. -/
def step (session : Session) : Command → Reply
  | .addFile path =>
    let (files, id) := session.files.add path
    { session := { session with files }, answer := .file id }
  | .path file => { session, answer := .path (session.files.path? file) }
  | .start options =>
    session.afterStep (Elaboration.start options session.workspace) fun _ => .done
  | .ensure table =>
    let (catalog, id) := session.catalog.ensure table
    { session := session.withCatalog catalog, answer := .table (some id) }
  | .find table => { session, answer := .table (session.catalog.find? table) }
  | .root => { session, answer := .root session.catalog.root? session.catalog.rootName }
  | .setRootName name =>
    { session := session.withCatalog (session.catalog.setRootName name), answer := .done }
  | .setTraced isTraced =>
    { session := session.withCatalog (session.catalog.setTraced isTraced), answer := .done }
  | .register entry =>
    let (catalog, attempt) := session.catalog.register session.workspace.traceAll entry
    { session := session.withCatalog catalog
      answer := .registered attempt.outcome
      trace := attempt.trace }
  | .add entry => session.elaborating .verdict (·.add · entry)
  | .addAll entries => session.elaborating .rejected (·.addAll · entries)
  | .finish => session.elaborating .verdict Elaboration.finish
  | .report diagnostic =>
    { session := { session with
        workspace := { session.workspace with log := session.log.report diagnostic } }
      answer := .done }
  | .print withFiles =>
    { session
      answer := .text (session.log.text (if withFiles then some session.files else none)) }
  | .diagnostics => { session, answer := .diagnostics session.log.entries }
  | .constructors table =>
    { session, answer := .constructors ((session.catalog.table? table).map Table.constructors) }

/-- Carries out commands in order. -/
def run (session : Session) : List Command → Session × List Reply
  | [] => (session, [])
  | command :: commands =>
    let reply := session.step command
    let (last, replies) := run reply.session commands
    (last, reply :: replies)

end Session

end DecodeTables
