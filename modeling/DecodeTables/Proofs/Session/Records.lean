import DecodeTables.Proofs.Catalog.Settings
import DecodeTables.Proofs.Session.Catalog

/-!
# What the trace is told

A table has its own copy of the setting that decides whether the trace is told of it, but the copies
never differ from what the catalog was told last, so the trace is told of all registrations of a
command or of none. `Catalog.linesOf` words what it is then told: one line for each entry, with the
outcome and what the table of the entry has afterwards. An elaboration tells its end by its own
options instead. `run_records` says what each command of a run writes.
-/

namespace DecodeTables

namespace Trace.Record

theorem text_accepted (table : String) (size : Nat) (exported : Export) :
    (accepted table size exported).text =
      s!"[table] {table} +ctor #{size} export={exported.text}\n" := by
  have hchannel : "[table] " = "[" ++ "table" ++ "] " := rfl
  simp only [text, line, channel, message, toString, hchannel, String.append_assoc]

theorem text_rejected (table reason : String) :
    (rejected table reason).text = s!"[table] {table} rejected: {reason}\n" := by
  have hchannel : "[table] " = "[" ++ "table" ++ "] " := rfl
  simp only [text, line, channel, message, toString, hchannel, String.append_assoc]

theorem text_finished (tables failures errors : Nat) :
    (finished tables failures errors).text =
      s!"[elab] {tables} tables, {failures} rejected constructors, {errors} errors\n" := by
  have hchannel : "[elab] " = "[" ++ "elab" ++ "] " := rfl
  have hend : " errors\n" = " errors" ++ "\n" := rfl
  simp only [text, line, channel, message, toString, hchannel, hend, String.append_assoc]

end Trace.Record

namespace Catalog

/-- The line for an entry with the given outcome, when the catalog is `after` the attempt. -/
def lineOf (after : Catalog) (entry : Entry) : Except Rejection Unit → String
  | .ok () =>
      let table := after.tableFor entry.table
      s!"[table] {entry.table} +ctor #{table.size} export={table.exported.text}\n"
  | .error rejection => s!"[table] {entry.table} rejected: {rejection.message}\n"

/-- The lines for entries that are registered one after another, each with what came of it. -/
def linesOf (traceAll : Bool) (catalog : Catalog) :
    List (Entry × Except Rejection Unit) → List String
  | [] => []
  | (entry, outcome) :: events =>
      let after := (catalog.register traceAll entry).1
      after.lineOf entry outcome :: after.linesOf traceAll events

variable {catalog : Catalog}

/-- The record of an attempt tells of the table as the attempt leaves it. -/
theorem text_record (h : catalog.Indexed) (traceAll : Bool) (entry : Entry) :
    ((catalog.tableFor entry.table).record
      ((catalog.tableFor entry.table).register entry.constructor entry.loc)).text =
      (catalog.register traceAll entry).1.lineOf entry
        (catalog.register traceAll entry).2.outcome := by
  have htable : (catalog.register traceAll entry).1.tableFor entry.table =
      (catalog.register traceAll entry).2.table :=
    (table_for_register_self h traceAll entry).trans
      (Table.attempt_table traceAll _ entry.request).symm
  have hname := (indexed_register h traceAll entry).name_table_for entry.table
  cases hresult : (catalog.tableFor entry.table).register entry.constructor entry.loc with
  | ok grown =>
      have hok : (catalog.register traceAll entry).2.outcome = .ok () :=
        congrArg (Except.map fun _ => ()) hresult
      have hgrown : (catalog.register traceAll entry).2.table = grown :=
        congrArg (fun result => result.toOption.getD (catalog.tableFor entry.table)) hresult
      rw [htable, hgrown] at hname
      rw [Table.record, Trace.Record.text_accepted, hok, lineOf, htable, hgrown, hname]
  | error rejection =>
      have herror : (catalog.register traceAll entry).2.outcome = .error rejection :=
        congrArg (Except.map fun _ => ()) hresult
      rw [Table.record, Trace.Record.text_rejected, herror, lineOf, h.name_table_for]

/-- Registrations in a uniform catalog are traced by its own setting: all of them or none. -/
theorem text_register_all (h : catalog.Indexed) (hsettings : catalog.Uniform) (traceAll : Bool)
    (entries : List Entry) :
    ((catalog.registerAll traceAll entries).2.flatMap (·.trace)).map Trace.Record.text =
      if catalog.isTraced || traceAll then
        catalog.linesOf traceAll (catalog.events traceAll entries)
      else [] := by
  induction entries generalizing catalog with
  | nil => exact (ite_self []).symm
  | cons entry entries ih =>
      have hothers := ih (indexed_register h traceAll entry)
        (uniform_register hsettings traceAll entry)
      rw [is_traced_register] at hothers
      have hfirst : (catalog.register traceAll entry).2.trace =
          if catalog.isTraced || traceAll then
            [(catalog.tableFor entry.table).record
              ((catalog.tableFor entry.table).register entry.constructor entry.loc)]
          else [] := by
        rw [← (hsettings.table_for entry.table).2]
        rfl
      rw [registerAll, List.flatMap_cons, List.map_append, hothers, hfirst, events_cons, linesOf,
        ← text_record h]
      cases catalog.isTraced || traceAll <;> rfl

end Catalog

namespace Session

open Catalog (Operation)

/-- A command that does not end an elaboration writes what its registrations write. -/
theorem trace_step (session : Session) {command : Command} (hnot : command ≠ .finish) :
    (session.step command).trace = ((session.readied command).registerAll
      session.workspace.traceAll command.entries).2.flatMap (·.trace) := by
  cases command with
  | finish => exact absurd rfl hnot
  | register entry => exact (List.append_nil _).symm
  | add entry =>
      rw [step, elaborating_eq, Elaboration.add_eq, trace_all_current]
      exact (List.append_nil _).symm
  | addAll entries =>
      rw [step, elaborating_eq, Elaboration.add_all_eq, trace_all_current]
      rfl
  | _ => rfl

/-- The end of an elaboration is traced by its options. -/
theorem trace_step_finish (session : Session) :
    (session.step .finish).trace =
      if session.current.1.options.isTraced || session.workspace.traceAll then
        [.finished (session.step .finish).session.catalog.size session.current.1.rejected
          (session.step .finish).session.log.errors]
      else [] := by
  rw [step, elaborating_eq, ← trace_all_current]
  rfl

/-- Whether everything is traced is settled when a run begins. -/
theorem trace_all_run (session : Session) (commands : List Command) :
    (session.run commands).1.workspace.traceAll = session.workspace.traceAll := by
  induction commands generalizing session with
  | nil => rfl
  | cons command commands ih => exact (ih _).trans (trace_all_step session command)

/-- What a run makes of the catalog, up to the first entry of a further command. -/
theorem readied_run (session : Session) (commands : List Command) (command : Command) :
    (session.run commands).1.readied command =
      session.catalog.operateAll session.workspace.traceAll
        (session.operationsOf commands ++ (session.run commands).1.preparations command) := by
  rw [Catalog.operate_all_append, ← catalog_run]
  exact readied_operations _ _ command

/-- A command that comes after any run writes one line for each entry that it registers, with the
outcome of the entry, as the reply tells it, and what its table has right afterwards. It does so if
the environment asks for it, or if the tables were told to be traced the last time that they were
told anything about it, by a command or by an elaboration that began. Otherwise it writes nothing.
The end of an elaboration is one line, with the counts afterwards, and goes by the options of that
elaboration. No other command writes anything. -/
theorem run_records (rootName : String) (setting? : Option String) (commands : List Command)
    (command : Command) :
    let isRequested := Trace.isRequested setting?
    let first := begin rootName isRequested
    let session := (first.run commands).1
    let reply := session.step command
    let events := session.attempts command
    let isTraced := ((first.operationsOf commands ++ session.preparations command).filterMap
      Operation.isTraced?).getLast?.getD false
    (events.map Prod.fst = command.entries ∧ session.Tells command (events.map Prod.snd)) ∧
      reply.trace.map Trace.Record.text = match command with
        | .register _ | .add _ | .addAll _ =>
            if isTraced || isRequested then
              (session.readied command).linesOf isRequested events
            else []
        | .finish =>
            let tables := reply.session.catalog.size
            let failures := session.current.1.rejected
            let errors := reply.session.log.errors
            if session.current.1.options.isTraced || isRequested then
              [s!"[elab] {tables} tables, {failures} rejected constructors, {errors} errors\n"]
            else []
        | _ => [] := by
  intro isRequested first session reply events isTraced
  refine ⟨⟨Catalog.entries_events _ _ _, tells_attempts session command⟩, ?_⟩
  have hrequested : session.workspace.traceAll = isRequested := trace_all_run first commands
  have hindexed : (session.readied command).Indexed :=
    (quiet_readied (indexed_run rootName isRequested commands) command).indexed
  have hreadied : session.readied command = (Catalog.empty rootName).operateAll isRequested
      (first.operationsOf commands ++ session.preparations command) :=
    readied_run first commands command
  have hsettings : (session.readied command).Uniform := by
    rw [hreadied]
    exact Catalog.uniform_operate_all (Catalog.uniform_empty rootName) _ _
  have htraced : (session.readied command).isTraced = isTraced := by
    rw [hreadied, Catalog.is_traced_operate_all]
    rfl
  have hlines (hnot : command ≠ .finish) : reply.trace.map Trace.Record.text =
      if isTraced || isRequested then (session.readied command).linesOf isRequested events
      else [] := by
    have hregistered := Catalog.text_register_all hindexed hsettings isRequested command.entries
    rw [htraced] at hregistered
    rw [trace_step session hnot, hrequested, hregistered]
    show _ = ite _ (Catalog.linesOf _ _ (Catalog.events session.workspace.traceAll _ _)) _
    rw [hrequested]
  cases command with
  | register | add | addAll => exact hlines nofun
  | finish =>
      rw [trace_step_finish, hrequested]
      show List.map _ (ite _ _ _) = ite _ _ _
      rw [← Trace.Record.text_finished]
      split <;> rfl
  | _ =>
      -- without entries there are no lines in either case
      exact (hlines nofun).trans (ite_self [])

example :
    let sized (width : Width) : Catalog.Entry :=
      ⟨"reg", { execution? := some { exportStatement? := some ⟨.varnode, width⟩ } }, .unknown⟩
    let commands : List Command :=
      [.ensure "reg", .start { isTraced := true }, .addAll [sized ⟨4, by decide⟩],
        .setTraced false, .add (sized ⟨4, by decide⟩), .finish]
    ((begin "insn" false).run commands).2.map (·.trace.map Trace.Record.text) =
      [[], [], ["[table] reg +ctor #1 export=reference:4\n"], [], [],
        ["[elab] 1 tables, 0 rejected constructors, 1 errors\n"]] := by
  decide

end Session

end DecodeTables
