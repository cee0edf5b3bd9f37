import DecodeTables.Proofs.Catalog.Growth
import DecodeTables.Proofs.Session.Accounts
import DecodeTables.Proofs.Session.Catalog

/-!
# Nothing is lost in a session

Every command adds to a session and takes nothing away: files and tables keep their numbers, tables
keep their constructors, and diagnostics stay. `GrowsInto` says so of a session and what became of
it, `grows_step` of one command and `run_grows` of any run. In particular an elaboration that found
fault is never followed by one that finds none.
-/

namespace DecodeTables

/-- A file that is known keeps its path, whatever files become known. -/
theorem SourceFiles.path_add {files : SourceFiles} {id : Nat} {path : String}
    (h : files.path? id = some path) (other : String) :
    (files.add other).1.path? id = some path :=
  Interner.lookup_insert h (Path.normal other)

/-- An elaboration that ends finds fault if an error was counted before. -/
theorem Elaboration.answer_finish_of_errors {workspace : Workspace}
    (h : workspace.log.errors ≠ 0) (elaboration : Elaboration) :
    (elaboration.finish workspace).answer = false := by
  rw [← Bool.not_eq_true, answer_finish_iff]
  exact fun hgood => h hgood.1

namespace Session

/-- `session.GrowsInto later` says that a session has lost nothing later: files keep their paths,
tables have grown, and diagnostics were added at the end. -/
structure GrowsInto (session later : Session) : Prop where
  files : ∀ id path, session.files.path? id = some path → later.files.path? id = some path
  catalog : session.catalog.GrowsInto later.catalog
  diagnostics : session.log.entries <+: later.log.entries
  errors : session.log.errors ≤ later.log.errors

theorem GrowsInto.refl (session : Session) : session.GrowsInto session :=
  ⟨fun _ _ => id, .refl session.catalog, List.prefix_rfl, Nat.le_refl _⟩

theorem GrowsInto.trans {session middle later : Session} (h : session.GrowsInto middle)
    (h' : middle.GrowsInto later) : session.GrowsInto later where
  files id path hpath := h'.files id path (h.files id path hpath)
  catalog := h.catalog.trans h'.catalog
  diagnostics := h.diagnostics.trans h'.diagnostics
  errors := Nat.le_trans h.errors h'.errors

variable {session : Session}

/-- Only files that are numbered can become known. -/
theorem path_step {id : Nat} {path : String} (h : session.files.path? id = some path)
    (command : Command) : (session.step command).session.files.path? id = some path := by
  cases command with
  | addFile other => exact SourceFiles.path_add h other
  | add | addAll | finish =>
      rw [step, elaborating_eq]
      exact h
  | _ => exact h

/-- A command takes nothing away. -/
theorem grows_step (h : session.catalog.Indexed) (command : Command) :
    session.GrowsInto (session.step command).session where
  files _ _ hpath := path_step hpath command
  catalog := by
    rw [catalog_step_operations]
    exact Catalog.grows_operate_all h _ _
  diagnostics := by
    rw [log_step, Log.entries_report_all]
    exact List.prefix_append _ _
  errors := by
    rw [log_step, Log.errors_report_all]
    exact Nat.le_add_right _ _

/-- Nor does a run. -/
theorem grows_run (h : session.catalog.Indexed) (commands : List Command) :
    session.GrowsInto (session.run commands).1 := by
  induction commands generalizing session with
  | nil => exact .refl session
  | cons command commands ih => exact (grows_step h command).trans (ih (indexed_step h command))

/-- What a session has been told before is never lost by what it is told later. Files and tables
keep their numbers, and diagnostics their places. A table keeps its name, its symbol and, in front
of others, its constructors; once it has some, its export only ever changes to one for several kinds
of values of the same width. So a name stays that of the same table, and a table that is defined
stays defined. Once an elaboration has ended and found fault, every elaboration that ends later
finds fault. -/
theorem run_grows (rootName : String) (traceAll : Bool) (commands others : List Command) :
    let session := ((begin rootName traceAll).run commands).1
    let later := (session.run others).1
    session.GrowsInto later ∧
      (∀ name id, session.catalog.find? name = some id → later.catalog.find? name = some id) ∧
      (∀ name, session.catalog.isDefined name = true → later.catalog.isDefined name = true) ∧
      ∀ elaboration another : Elaboration,
        let finished := elaboration.finish session.workspace
        let resumed : Session := { session with workspace := finished.workspace }
        finished.answer = false →
          (another.finish (resumed.run others).1.workspace).answer = false := by
  intro session later
  have hindexed : session.catalog.Indexed := indexed_run rootName traceAll commands
  have hgrows : session.GrowsInto later := grows_run hindexed others
  have hlater : later.catalog.Indexed := indexed_run_of_indexed hindexed others
  refine ⟨hgrows, ?_, ?_, ?_⟩
  · intro name id hfind
    exact hgrows.catalog.find hindexed hlater hfind
  · intro name hdefined
    exact hgrows.catalog.is_defined hindexed hlater hdefined
  · intro elaboration another finished resumed hbad
    -- the fault is an error that the log has counted, and errors are never uncounted
    have hcounted : resumed.log.errors ≠ 0 := by
      exact beq_eq_false_iff_ne.1 hbad
    have hresumed := @grows_run resumed hindexed others
    exact Elaboration.answer_finish_of_errors
      (Nat.ne_of_gt (Nat.lt_of_lt_of_le (Nat.pos_of_ne_zero hcounted) hresumed.errors)) another

/-- The root is missing when the first elaboration ends. It is there when the second one ends, which
nevertheless finds fault. In between the export of the root comes to stand for several kinds. -/
theorem run_grows_root_missing :
    let sized (source : Execution.Source) : Catalog.Entry :=
      ⟨"reg", { execution? := some { exportStatement? := some ⟨source, ⟨4, by decide⟩⟩ } },
        { file := 1 }⟩
    let session := ((begin "insn" false).run [.addFile "a.spec", .register (sized .constant)]).1
    let others : List Command := [.setRootName "reg", .register (sized .varnode)]
    let later := (session.run others).1
    let elaboration : Elaboration := { options := { rootName := "insn" } }
    let another : Elaboration := { options := { rootName := "reg" } }
    let finished := elaboration.finish session.workspace
    let resumed : Session := { session with workspace := finished.workspace }
    (session.catalog.find? "reg" = some 0 ∧ later.catalog.find? "reg" = some 0) ∧
      (session.catalog.isDefined "reg" = true ∧ later.catalog.isDefined "reg" = true) ∧
      ((session.catalog.table? "reg").map Table.exported = some (.sized .const ⟨4, by decide⟩) ∧
        (later.catalog.table? "reg").map Table.exported = some (.sized .multiple ⟨4, by decide⟩)) ∧
      later.files.path? 1 = some "a.spec" ∧
      finished.answer = false ∧ (another.finish later.workspace).answer = true ∧
      (another.finish (resumed.run others).1.workspace).answer = false := by
  intro sized session others later elaboration another finished resumed
  obtain ⟨hgrows, hfound, hdefined, hbad⟩ :=
    run_grows "insn" false [.addFile "a.spec", .register (sized .constant)] others
  have hfind : session.catalog.find? "reg" = some 0 := by decide
  have hreg : session.catalog.isDefined "reg" = true := by decide
  have hpath : session.files.path? 1 = some "a.spec" := by decide
  have hfinished : finished.answer = false := by decide
  exact ⟨⟨hfind, hfound "reg" 0 hfind⟩, ⟨hreg, hdefined "reg" hreg⟩, by decide,
    hgrows.files 1 "a.spec" hpath, hfinished, by decide, hbad elaboration another hfinished⟩

end Session

end DecodeTables
