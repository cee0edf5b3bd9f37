import DecodeTables.Proofs.Catalog.Untraced
import DecodeTables.Proofs.Session.Attempts

/-!
# Tracing does not interfere

Whether anything is traced is settled by the environment and by options and commands, and is kept by
catalogs, by each table, and by elaborations. `Session.untraced` and `Command.untraced` are a
session and a command without all this. `step_untraced` says that a command without tracing, in a
session without tracing, comes to what the command comes to in the session itself, with tracing
taken away. So two runs that are the same without tracing give replies that are the same without
tracing, and nothing but the trace shows a difference: `run_unobserved`.
-/

namespace DecodeTables

namespace Elaboration

/-- Options that do not ask for a trace. -/
def Options.untraced (options : Options) : Options :=
  { options with isTraced := false }

/-- An elaboration that is not traced. -/
def untraced (elaboration : Elaboration) : Elaboration :=
  { elaboration with options := elaboration.options.untraced }

end Elaboration

/-- A workspace in which nothing is traced. -/
def Workspace.untraced (workspace : Workspace) : Workspace where
  catalog := workspace.catalog.untraced
  log := workspace.log
  traceAll := false

namespace Elaboration

/-- What a step leads to when nothing is traced. -/
def Outcome.untraced {α : Type} (outcome : Outcome α) : Outcome α where
  elaboration := outcome.elaboration.untraced
  workspace := outcome.workspace.untraced
  answer := outcome.answer

theorem start_untraced (options : Options) (workspace : Workspace) :
    start options.untraced workspace.untraced = (start options workspace).untraced := by
  have hcatalog : (workspace.catalog.untraced.setRootName options.rootName).setTraced false =
      ((workspace.catalog.setRootName options.rootName).setTraced options.isTraced).untraced := by
    rw [Catalog.set_root_name_untraced, Catalog.set_traced_untraced]
  show Outcome.mk _ { workspace.untraced with
    catalog := (workspace.catalog.untraced.setRootName options.rootName).setTraced false } _ _ = _
  rw [hcatalog]
  rfl

theorem add_untraced (elaboration : Elaboration) (workspace : Workspace)
    (entry : Catalog.Entry) :
    elaboration.untraced.add workspace.untraced entry =
      (elaboration.add workspace entry).untraced := by
  have hregister : workspace.untraced.catalog.register workspace.untraced.traceAll entry = _ :=
    Catalog.register_untraced workspace.traceAll workspace.catalog entry
  simp only [add_eq, hregister]
  rfl

theorem add_all_untraced (elaboration : Elaboration) (workspace : Workspace)
    (entries : List Catalog.Entry) :
    elaboration.untraced.addAll workspace.untraced entries =
      (elaboration.addAll workspace entries).untraced := by
  induction entries generalizing elaboration workspace with
  | nil => rfl
  | cons entry entries ih =>
      have hothers := ih (elaboration.add workspace entry).elaboration
        (elaboration.add workspace entry).workspace
      simp only [addAll, add_untraced]
      simp only [Outcome.untraced, hothers]
      rfl

theorem finish_untraced (elaboration : Elaboration) (workspace : Workspace) :
    elaboration.untraced.finish workspace.untraced = (elaboration.finish workspace).untraced := by
  have herrors : elaboration.untraced.errors workspace.untraced.catalog =
      elaboration.errors workspace.catalog := by
    show (if elaboration.options.requiresRoot then workspace.catalog.untraced.undefinedRoot
      else []) ++ workspace.catalog.untraced.undefinedTables = _
    rw [Catalog.undefined_root_untraced, Catalog.undefined_tables_untraced]
    rfl
  rw [finish, herrors]
  rfl

end Elaboration

namespace Session

/-- A session in which nothing is traced. -/
def untraced (session : Session) : Session where
  files := session.files
  workspace := session.workspace.untraced
  elaboration? := session.elaboration?.map Elaboration.untraced

/-- A command that asks for the same, but not for a trace. -/
def Command.untraced : Command → Command
  | .start options => .start options.untraced
  | .setTraced _ => .setTraced false
  | command => command

/-- A reply of which the trace is told nothing. -/
def Reply.untraced (reply : Reply) : Reply where
  session := reply.session.untraced
  answer := reply.answer

/-- An elaboration is begun in the same way, apart from what is traced. -/
theorem current_untraced (session : Session) :
    session.untraced.current = (session.current.1.untraced, session.current.2.untraced) := by
  cases helaboration : session.elaboration? with
  | some elaboration =>
      simp only [current, untraced, helaboration]
      rfl
  | none =>
      -- the usual options do not ask for a trace
      have hbegun : Elaboration.start {} session.workspace.untraced =
          (Elaboration.start {} session.workspace).untraced :=
        Elaboration.start_untraced {} session.workspace
      simp only [current, untraced, helaboration, Option.map_none, hbegun]
      rfl

/-- A step of an elaboration that comes to the same when nothing is traced does so in a session. -/
theorem elaborating_untraced {α : Type} (session : Session) (answer : α → Answer)
    (step : Elaboration → Workspace → Elaboration.Outcome α)
    (hstep : ∀ elaboration workspace, step elaboration.untraced workspace.untraced =
      (step elaboration workspace).untraced) :
    session.untraced.elaborating answer step = (session.elaborating answer step).untraced := by
  rw [elaborating_eq, elaborating_eq, current_untraced, hstep]
  rfl

/-- A command comes to the same, apart from what the trace is told. -/
theorem step_untraced (session : Session) (command : Command) :
    session.untraced.step command.untraced = (session.step command).untraced := by
  cases command with
  | addFile | path | find | root | report | print | diagnostics => rfl
  | start options =>
      show session.untraced.afterStep
        (Elaboration.start options.untraced session.workspace.untraced) (fun _ => .done) = _
      rw [Elaboration.start_untraced]
      rfl
  | ensure table =>
      show Reply.mk (session.untraced.withCatalog (session.catalog.untraced.ensure table).1)
        (.table (some (session.catalog.untraced.ensure table).2)) _ = _
      rw [Catalog.ensure_untraced]
      rfl
  | setRootName name =>
      show Reply.mk (session.untraced.withCatalog (session.catalog.untraced.setRootName name))
        _ _ = _
      rw [Catalog.set_root_name_untraced]
      rfl
  | setTraced isTraced =>
      show Reply.mk (session.untraced.withCatalog (session.catalog.untraced.setTraced false))
        _ _ = _
      rw [Catalog.set_traced_untraced _ isTraced]
      rfl
  | register entry =>
      have hregister := Catalog.register_untraced session.workspace.traceAll session.catalog entry
      show Reply.mk
        (session.untraced.withCatalog (session.catalog.untraced.register false entry).1)
        (.registered (session.catalog.untraced.register false entry).2.outcome)
        (session.catalog.untraced.register false entry).2.trace = _
      rw [hregister]
      rfl
  | add entry =>
      exact elaborating_untraced session _ (·.add · entry) fun elaboration workspace =>
        Elaboration.add_untraced elaboration workspace entry
  | addAll entries =>
      exact elaborating_untraced session _ (·.addAll · entries) fun elaboration workspace =>
        Elaboration.add_all_untraced elaboration workspace entries
  | finish => exact elaborating_untraced session _ _ Elaboration.finish_untraced
  | constructors table =>
      show Reply.mk _ (.constructors ((session.catalog.untraced.table? table).map _)) _ = _
      rw [Catalog.untraced, Catalog.table_set_traced, Option.map_map]
      rfl

/-- So does a run. -/
theorem run_untraced (session : Session) (commands : List Command) :
    session.untraced.run (commands.map Command.untraced) =
      ((session.run commands).1.untraced, (session.run commands).2.map Reply.untraced) := by
  induction commands generalizing session with
  | nil => rfl
  | cons command commands ih =>
      have hothers : (session.step command).untraced.session.run
          (commands.map Command.untraced) = _ := ih (session.step command).session
      rw [List.map_cons, run, step_untraced]
      simp only [hothers]
      rfl

/-- What can be seen when a command is done: the answer, the tables with their names, symbols,
sizes, exports and whether they are the root, the constructors of each table, the diagnostics, and
the counts of errors, of warnings, and of what the current elaboration has rejected. -/
structure Seen where
  answer : Answer
  tables : List (String × Symbol × Nat × Export × Bool)
  constructors : List (List Constructor)
  diagnostics : List Diagnostic
  errors : Nat
  warnings : Nat
  rejected? : Option Nat

/-- What a reply lets see, apart from the trace. -/
def Reply.seen (reply : Reply) : Seen where
  answer := reply.answer
  tables := reply.session.catalog.tables.map fun table =>
    (table.name, table.symbol, table.size, table.exported, table.isRoot)
  constructors := reply.session.catalog.tables.map Table.constructors
  diagnostics := reply.session.log.entries
  errors := reply.session.log.errors
  warnings := reply.session.log.warnings
  rejected? := reply.session.elaboration?.map Elaboration.rejected

/-- Tracing is not seen. -/
theorem seen_untraced (reply : Reply) : reply.untraced.seen = reply.seen := by
  show Seen.mk _ ((reply.session.catalog.tables.map Table.untraced).map _)
    ((reply.session.catalog.tables.map Table.untraced).map _) _ _ _
    ((reply.session.elaboration?.map Elaboration.untraced).map _) = _
  rw [List.map_map, List.map_map, Option.map_map]
  rfl

/-- Two sessions may differ in the setting of the environment that asks for a trace, and their
commands in which of them ask for one. If the commands are otherwise the same, all that is seen when
each of them is done is the same: nothing but the trace shows a difference. -/
theorem run_unobserved (rootName : String) (setting? otherSetting? : Option String)
    {commands others : List Command}
    (hsame : commands.map Command.untraced = others.map Command.untraced) :
    ((begin rootName (Trace.isRequested setting?)).run commands).2.map Reply.seen =
      ((begin rootName (Trace.isRequested otherSetting?)).run others).2.map Reply.seen := by
  have hrun := run_untraced (begin rootName (Trace.isRequested setting?)) commands
  -- without tracing both sessions begin as the same session
  have hother : (begin rootName (Trace.isRequested setting?)).untraced.run
      (others.map Command.untraced) = _ :=
    run_untraced (begin rootName (Trace.isRequested otherSetting?)) others
  have hreplies :
      ((begin rootName (Trace.isRequested setting?)).run commands).2.map Reply.untraced =
        ((begin rootName (Trace.isRequested otherSetting?)).run others).2.map Reply.untraced := by
    rw [hsame] at hrun
    exact congrArg Prod.snd (hrun.symm.trans hother)
  have hseen : ∀ replies : List Reply,
      replies.map Reply.seen = (replies.map Reply.untraced).map Reply.seen := by
    intro replies
    rw [List.map_map]
    exact List.map_congr_left fun reply _ => (seen_untraced reply).symm
  rw [hseen, hreplies, ← hseen]

/-- Two runs in which an entry is taken in, another one is rejected twice, and the root is missing.
The environment asks for a trace of the second run, in which the options ask for none. -/
theorem run_unobserved_reg :
    let sized (width : Width) : Catalog.Entry :=
      ⟨"reg", { execution? := some { exportStatement? := some ⟨.varnode, width⟩ } }, .unknown⟩
    let commandsWith (first second : Bool) : List Command :=
      [.start { isTraced := first }, .add (sized ⟨4, by decide⟩), .setTraced second,
        .register (sized ⟨8, by decide⟩), .add (sized ⟨8, by decide⟩), .finish, .diagnostics,
        .constructors "reg"]
    let repliesOf (setting? : Option String) (commands : List Command) :=
      ((begin "insn" (Trace.isRequested setting?)).run commands).2
    let commands := commandsWith true false
    let others := commandsWith false true
    let replies := repliesOf none commands
    let otherReplies := repliesOf (some "1") others
    commands.map Command.untraced = others.map Command.untraced ∧
      replies.map (·.trace.length) = [0, 1, 0, 0, 0, 1, 0, 0] ∧
      otherReplies.map (·.trace.length) = [0, 1, 0, 1, 1, 1, 0, 0] ∧
      replies.map Reply.seen = otherReplies.map Reply.seen := by
  intro sized commandsWith repliesOf commands others replies otherReplies
  have hsame : commands.map Command.untraced = others.map Command.untraced := rfl
  exact ⟨hsame, by decide, by decide, run_unobserved "insn" none (some "1") hsame⟩

end Session

end DecodeTables
