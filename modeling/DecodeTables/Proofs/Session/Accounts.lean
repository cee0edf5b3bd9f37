import DecodeTables.Proofs.Session.Attempts

/-!
# Counting errors and rejections

Errors are counted in the log, rejections by the elaboration that meets them, and the diagnostics
themselves are kept in a list. `log_step` says what each command reports, and `rejected_step` what
it adds to the count of rejections. From these follows `run_accounts`: in every session all counts
are right, and entries that are added change all of them by the number of entries that are rejected.
-/

namespace DecodeTables

open Elaboration (rejections rejectedCount complaint?)

namespace Session

/-- What a command reports, in order. -/
def reports (session : Session) (command : Command) : List Diagnostic :=
  match command with
  | .add _ => (session.attempts command).filterMap complaint?
  | .addAll _ => (session.attempts command).filterMap complaint?
  | .finish => session.current.1.errors session.current.2.catalog
  | .report diagnostic => [diagnostic]
  | _ => []

/-- What the current elaboration has undertaken once a command is done, if it undertook `before`
until then. A new elaboration has not undertaken anything. -/
def undertake (session : Session) (before : List (Catalog.Entry × Except Rejection Unit))
    (command : Command) : List (Catalog.Entry × Except Rejection Unit) :=
  match command with
  | .start _ => []
  | .add _ => before ++ session.attempts command
  | .addAll _ => before ++ session.attempts command
  | _ => before

/-- What the current elaboration has undertaken since it began: the entries that it was given, each
with what came of it. Before the commands it undertook `before`. -/
def undertaken (session : Session) (before : List (Catalog.Entry × Except Rejection Unit)) :
    List Command → List (Catalog.Entry × Except Rejection Unit)
  | [] => before
  | command :: commands =>
      (session.step command).session.undertaken (session.undertake before command) commands

variable {session : Session}

/-- Adding one entry leaves the session as adding a list of one entry does. -/
theorem session_add (session : Session) (entry : Catalog.Entry) :
    (session.step (.add entry)).session = (session.step (.addAll [entry])).session := by
  rw [step, step, elaborating_eq, elaborating_eq]
  rfl

/-- A command adds what it reports to the log. -/
theorem log_step (session : Session) (command : Command) :
    (session.step command).session.log = session.log.reportAll (session.reports command) := by
  have hadd (entries : List Catalog.Entry) : (session.step (.addAll entries)).session.log =
      session.log.reportAll (session.reports (.addAll entries)) := by
    rw [step, elaborating_eq, reports, attempts, ← log_current session, ← trace_all_current]
    exact (Elaboration.add_all_counts session.current.1 session.current.2 entries).2.2
  cases command with
  | add entry =>
      rw [session_add]
      exact hadd [entry]
  | addAll entries => exact hadd entries
  | finish =>
      rw [step, elaborating_eq, reports, ← log_current session]
      rfl
  | _ => rfl

/-- The counts of the log stay right. -/
theorem counted_run (h : session.log.Counted) (commands : List Command) :
    (session.run commands).1.log.Counted := by
  induction commands generalizing session with
  | nil => exact h
  | cons command commands ih =>
      apply ih
      rw [log_step]
      exact h.report_all _

/-- The current elaboration is a new one if there is none. -/
theorem elaboration_current (session : Session) :
    session.current.1 = session.elaboration?.getD {} := by
  unfold current
  cases session.elaboration? <;> rfl

/-- A command adds to the count of rejections what the current elaboration rejects of it. -/
theorem rejected_step {before : List (Catalog.Entry × Except Rejection Unit)}
    (h : session.current.1.rejected = rejectedCount before) (command : Command) :
    (session.step command).session.current.1.rejected =
      rejectedCount (session.undertake before command) := by
  have hadd (entries : List Catalog.Entry) :
      (session.step (.addAll entries)).session.current.1.rejected =
        rejectedCount (session.undertake before (.addAll entries)) := by
    rw [undertake, Elaboration.rejected_count_append, ← h, attempts, ← trace_all_current, step,
      elaborating_eq]
    exact (Elaboration.add_all_counts session.current.1 session.current.2 entries).2.1
  cases command with
  | start options => rfl
  | add entry =>
      rw [session_add]
      exact hadd [entry]
  | addAll entries => exact hadd entries
  | finish =>
      rw [step, elaborating_eq]
      exact h
  | _ =>
      rw [elaboration_current] at h ⊢
      exact h

/-- The current elaboration counts what it rejects. -/
theorem rejected_run {before : List (Catalog.Entry × Except Rejection Unit)}
    (h : session.current.1.rejected = rejectedCount before) (commands : List Command) :
    (session.run commands).1.current.1.rejected =
      rejectedCount (session.undertaken before commands) := by
  induction commands generalizing session before with
  | nil => exact h
  | cons command commands ih => exact ih (rejected_step h command)

end Session

end DecodeTables
