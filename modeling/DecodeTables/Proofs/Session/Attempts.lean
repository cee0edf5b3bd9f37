import DecodeTables.Proofs.Diagnostic.Report
import DecodeTables.Proofs.Elaboration.AddAll
import DecodeTables.Session

/-!
# The registrations that a command attempts

Some commands ask for entries to be registered, one entry or several, with an elaboration or without
one. `catalog_step` says that every command first readies the catalog, in a way that no table shows,
and then registers its entries in order. `tells_attempts` says that the reply to the command tells
what came of these `attempts`.
-/

namespace DecodeTables.Session

/-- The entries that a command asks to be registered, in order. -/
def Command.entries : Command → List Catalog.Entry
  | .register entry => [entry]
  | .add entry => [entry]
  | .addAll entries => entries
  | _ => []

/-- The current elaboration, or a new one if there is none, and the workspace for it. -/
def current (session : Session) : Elaboration × Workspace :=
  match session.elaboration? with
  | some elaboration => (elaboration, session.workspace)
  | none =>
      let begun := Elaboration.start {} session.workspace
      (begun.elaboration, begun.workspace)

/-- The catalog as a command leaves it when it does not register anything, or as it is right before
the command registers its first entry. -/
def readied (session : Session) (command : Command) : Catalog :=
  match command with
  | .register _ => session.catalog
  | .add _ => session.current.2.catalog
  | .addAll _ => session.current.2.catalog
  | command => (session.step command).session.catalog

/-- The entries that a command registers, each with what came of it. -/
def attempts (session : Session) (command : Command) :
    List (Catalog.Entry × Except Rejection Unit) :=
  (session.readied command).events session.workspace.traceAll command.entries

/-- `Tells session command outcomes` says that the reply of a session to a command tells these
outcomes. An elaboration answers how many entries it took or rejected and leaves the reasons in the
log. -/
def Tells (session : Session) (command : Command) (outcomes : List (Except Rejection Unit)) :
    Prop :=
  let reply := session.step command
  let reasons := (Elaboration.rejections outcomes).map Rejection.diagnostic
  match command with
  | .register _ => [reply.answer] = outcomes.map .registered
  | .add _ =>
      [reply.answer] = outcomes.map (fun outcome => .verdict outcome.isOk) ∧
        reply.session.log.entries = session.log.entries ++ reasons
  | .addAll _ =>
      reply.answer = .rejected reasons.length ∧
        reply.session.log.entries = session.log.entries ++ reasons
  | _ => outcomes = []

variable {session : Session}

/-- An elaboration is begun, if there is none, before it takes a step. -/
theorem elaborating_eq {α : Type} (session : Session) (answer : α → Answer)
    (step : Elaboration → Workspace → Elaboration.Outcome α) :
    session.elaborating answer step =
      session.afterStep (step session.current.1 session.current.2) answer := by
  unfold elaborating current
  cases session.elaboration? <;> rfl

/-- Beginning an elaboration is no business of the log. -/
theorem log_current (session : Session) : session.current.2.log = session.log := by
  unfold current
  cases session.elaboration? <;> rfl

/-- Beginning an elaboration does not change whether everything is traced. -/
theorem trace_all_current (session : Session) :
    session.current.2.traceAll = session.workspace.traceAll := by
  unfold current
  cases session.elaboration? <;> rfl

/-- Whether everything is traced is settled when a session begins. -/
theorem trace_all_step (session : Session) (command : Command) :
    (session.step command).session.workspace.traceAll = session.workspace.traceAll := by
  cases command with
  | add entry =>
      rw [step, elaborating_eq, Elaboration.add_eq]
      exact trace_all_current session
  | addAll entries =>
      rw [step, elaborating_eq, Elaboration.add_all_eq]
      exact trace_all_current session
  | finish =>
      rw [step, elaborating_eq]
      exact trace_all_current session
  | _ => rfl

/-- Beginning an elaboration does not show in any table. -/
theorem quiet_current (h : session.catalog.Indexed) :
    Catalog.Quiet session.catalog session.current.2.catalog := by
  unfold current
  cases session.elaboration? with
  | some elaboration => exact .refl h
  | none =>
      -- a new elaboration gives the root its usual name and is not traced
      have hnamed := Catalog.Quiet.set_root_name h defaultRootName
      exact hnamed.trans (.set_traced hnamed.indexed false)

/-- What a command does before it registers anything does not show in any table. -/
theorem quiet_readied (h : session.catalog.Indexed) (command : Command) :
    Catalog.Quiet session.catalog (session.readied command) := by
  cases command with
  | add | addAll => exact quiet_current h
  | start options =>
      have hnamed := Catalog.Quiet.set_root_name h options.rootName
      exact hnamed.trans (.set_traced hnamed.indexed options.isTraced)
  | ensure table => exact .ensure h table
  | setRootName name => exact .set_root_name h name
  | setTraced isTraced => exact .set_traced h isTraced
  | finish =>
      show Catalog.Quiet _ (session.elaborating .verdict Elaboration.finish).session.catalog
      rw [elaborating_eq]
      exact quiet_current h
  | addFile | path | find | root | register | report | print | diagnostics | constructors =>
      exact .refl h

/-- A command readies the catalog and then registers its entries in order. -/
theorem catalog_step (session : Session) (command : Command) :
    (session.step command).session.catalog =
      ((session.readied command).registerAll session.workspace.traceAll command.entries).1 := by
  cases command with
  | add entry =>
      rw [step, elaborating_eq, Elaboration.add_eq, trace_all_current]
      rfl
  | addAll entries =>
      rw [step, elaborating_eq, Elaboration.add_all_eq, trace_all_current]
      rfl
  | _ => rfl

/-- The reply to a command tells what came of the entries that the command registers. -/
theorem tells_attempts (session : Session) (command : Command) :
    session.Tells command ((session.attempts command).map Prod.snd) := by
  -- the reasons come after what the log had when the command was given
  have hlog (reasons : List Diagnostic) :
      (session.current.2.log.reportAll reasons).entries = session.log.entries ++ reasons := by
    rw [Log.entries_report_all, log_current]
  rw [attempts, Catalog.outcomes_events]
  cases command with
  | register entry => rfl
  | add entry =>
      rw [Tells, step, elaborating_eq, Elaboration.add_eq, trace_all_current]
      exact ⟨rfl, hlog _⟩
  | addAll entries =>
      rw [Tells, step, elaborating_eq, Elaboration.add_all_eq, trace_all_current]
      refine ⟨?_, hlog _⟩
      rw [List.length_map]
      rfl
  | _ => rfl

end DecodeTables.Session
