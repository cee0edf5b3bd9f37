import DecodeTables.Proofs.Session.Attempts
import DecodeTables.Proofs.Table.Batch

/-!
# Tables do not interfere

All tables of a session share one catalog, and commands for different tables may come in any order.
`run_isolates` says that this does not matter: what happens to the table called `name` in a run is
what happens to a new table of that name that is asked for nothing but the registrations addressed
to it. `step_follows` is the simulation that carries this through a run.
-/

namespace DecodeTables

open Catalog (requestsFor outcomesFor)

/-- The constructors and the export of the table called `name`: none at all if there is no table. -/
def Catalog.contents (catalog : Catalog) (name : String) : List Constructor × Export :=
  ((catalog.table? name).map fun table => (table.constructors, table.exported)).getD ([], .none)

namespace Session

/-- The entries that commands ask to be registered, in order. -/
def requested (commands : List Command) : List Catalog.Entry :=
  commands.flatMap Command.entries

/-- The entries that are registered in a run, each with what came of it. -/
def history (session : Session) : List Command → List (Catalog.Entry × Except Rejection Unit)
  | [] => []
  | command :: commands =>
      session.attempts command ++ (session.step command).session.history commands

/-- `Follows session name alone` says that the table called `name` of a session is as the table
`alone` is, which may also be the empty table that would be created. -/
structure Follows (session : Session) (name : String) (alone : Table) : Prop where
  indexed : session.catalog.Indexed
  alike : Table.Alike (session.catalog.tableFor name) alone

variable {session : Session}

/-- A command comes to the same for the table called `name` and for a table that is asked for the
registrations of the command addressed to `name`. -/
theorem step_follows {name : String} {alone : Table} (h : session.Follows name alone)
    (traceAlone : Bool) (command : Command) :
    (session.step command).session.Follows name
        (alone.attemptAll traceAlone (requestsFor name command.entries)).1 ∧
      outcomesFor name (session.attempts command) =
        (alone.attemptAll traceAlone (requestsFor name command.entries)).2 := by
  have hquiet := quiet_readied h.indexed command
  have hready := (hquiet.table name).symm.trans h.alike
  obtain ⟨halike, houtcomes⟩ := Catalog.register_all_alike hquiet.indexed
    session.workspace.traceAll traceAlone command.entries hready
  refine ⟨⟨?_, ?_⟩, houtcomes⟩
  · rw [catalog_step]
    exact Catalog.indexed_register_all hquiet.indexed _ _
  · rw [catalog_step]
    exact halike

/-- So does a run. -/
theorem run_follows {name : String} {alone : Table} (h : session.Follows name alone)
    (traceAlone : Bool) (commands : List Command) :
    (session.run commands).1.Follows name
        (alone.attemptAll traceAlone (requestsFor name (requested commands))).1 ∧
      outcomesFor name (session.history commands) =
        (alone.attemptAll traceAlone (requestsFor name (requested commands))).2 := by
  induction commands generalizing session alone with
  | nil => exact ⟨h, rfl⟩
  | cons command commands ih =>
      obtain ⟨hstep, hfirst⟩ := step_follows h traceAlone command
      obtain ⟨hrun, hothers⟩ := ih hstep
      -- the requests of the first command come before those of the others
      have hrequests : requestsFor name (requested (command :: commands)) =
          requestsFor name command.entries ++ requestsFor name (requested commands) := by
        rw [requested, List.flatMap_cons, Catalog.requests_for_append, requested]
      rw [hrequests, Table.attempt_all_append, history, Catalog.outcomes_for_append, hfirst,
        hothers]
      exact ⟨hrun, rfl⟩

/-- A table for which a command asks a registration is there when the command is done, and tables
are never removed. -/
theorem table_step_is_some (h : session.catalog.Indexed) {command : Command} {name : String}
    (hname : (session.catalog.table? name).isSome = true ∨
      ∃ entry ∈ command.entries, entry.table = name) :
    ((session.step command).session.catalog.table? name).isSome = true := by
  have hquiet := quiet_readied h command
  rw [catalog_step, Catalog.table_register_all_is_some hquiet.indexed]
  exact hname.imp_left (hquiet.kept name)

/-- A table for which a run asks a registration is there in the end. -/
theorem table_run_is_some (h : session.catalog.Indexed) {commands : List Command} {name : String}
    (hname : (session.catalog.table? name).isSome = true ∨
      ∃ entry ∈ requested commands, entry.table = name) :
    ((session.run commands).1.catalog.table? name).isSome = true := by
  induction commands generalizing session with
  | nil =>
      rcases hname with hname | ⟨entry, hmem, -⟩
      · exact hname
      · exact absurd hmem List.not_mem_nil
  | cons command commands ih =>
      have hnext : (session.step command).session.catalog.Indexed := by
        rw [catalog_step]
        exact Catalog.indexed_register_all (quiet_readied h command).indexed _ _
      apply ih hnext
      rcases hname with hname | ⟨entry, hmem, hentry⟩
      · exact Or.inl (table_step_is_some h (Or.inl hname))
      · rw [requested, List.flatMap_cons, List.mem_append] at hmem
        rcases hmem with hmem | hmem
        · exact Or.inl (table_step_is_some h (Or.inr ⟨entry, hmem, hentry⟩))
        · exact Or.inr ⟨entry, hmem, hentry⟩

/-- A session begins with new tables only. -/
theorem begin_follows (rootName : String) (traceAll : Bool) (symbol : Symbol)
    (name otherRoot : String) :
    (begin rootName traceAll).Follows name (Table.newEmpty symbol name otherRoot) := by
  have hindexed := Catalog.indexed_empty rootName
  refine ⟨hindexed, ?_⟩
  have hnone : (Catalog.empty rootName).table? name = none := by
    rw [hindexed.table_eq_find]
    rfl
  show Table.Alike ((Catalog.empty rootName).tableFor name) _
  rw [Catalog.tableFor, hnone]
  exact ⟨rfl, rfl, rfl⟩

/-- The history of a run tells of each entry that the run asks to be registered. -/
theorem entries_history (session : Session) (commands : List Command) :
    (session.history commands).map Prod.fst = requested commands := by
  induction commands generalizing session with
  | nil => rfl
  | cons command commands ih =>
      rw [history, List.map_append, attempts, Catalog.entries_events, ih, requested, requested,
        List.flatMap_cons]

/-- A session has the contents of the table that it follows. -/
theorem contents_of_follows {name : String} {alone : Table} (h : session.Follows name alone) :
    session.catalog.contents name = (alone.constructors, alone.exported) := by
  rw [← h.alike.constructors, ← h.alike.exported, Catalog.contents, Catalog.tableFor]
  cases session.catalog.table? name <;> rfl

/-- What a run does to the table called `name` is what the registrations addressed to `name` do to a
new table of that name: the outcomes, the constructors and the export are the same. So runs that ask
the same of each table leave the same contents, in whatever order the tables take turns. The history
has all registrations, with the outcomes that the replies tell. -/
theorem run_isolates (rootName : String) (traceAll : Bool) (commands : List Command) :
    let first := begin rootName traceAll
    let last := (first.run commands).1
    ((first.history commands).map Prod.fst = requested commands ∧
      ∀ command, last.Tells command ((last.attempts command).map Prod.snd)) ∧
    (∀ name symbol aloneRoot traceAlone,
      let requests := requestsFor name (requested commands)
      let (alone, outcomes) := (Table.newEmpty symbol name aloneRoot).attemptAll traceAlone requests
      outcomesFor name (first.history commands) = outcomes ∧
        match last.catalog.table? name with
        | some table => table.constructors = alone.constructors ∧ table.exported = alone.exported
        | none => requests = []) ∧
    ∀ otherRoot traceOther others,
      (∀ name, requestsFor name (requested commands) = requestsFor name (requested others)) →
        ∀ name, last.catalog.contents name =
          ((begin otherRoot traceOther).run others).1.catalog.contents name := by
  intro first last
  refine ⟨⟨entries_history first commands, tells_attempts last⟩, ?_, ?_⟩
  · intro name symbol aloneRoot traceAlone requests
    have hbegin := begin_follows rootName traceAll symbol name aloneRoot
    obtain ⟨hlast, houtcomes⟩ := run_follows hbegin traceAlone commands
    have hcontents := contents_of_follows hlast
    refine ⟨houtcomes, ?_⟩
    rw [Catalog.contents] at hcontents
    cases htable : last.catalog.table? name with
    | some table =>
        rw [htable] at hcontents
        exact Prod.mk.inj hcontents
    | none =>
        -- a table that was asked for anything would be there
        have hunnamed : ∀ entry ∈ requested commands, entry.table ≠ name := by
          intro entry hmem hentry
          have hsome := table_run_is_some hbegin.indexed (Or.inr ⟨entry, hmem, hentry⟩)
          rw [htable] at hsome
          cases hsome
        show (List.filter _ _).map _ = []
        rw [List.filter_eq_nil_iff.2 (by simpa using hunnamed), List.map_nil]
  · intro otherRoot traceOther others hsame name
    have hlast := run_follows (begin_follows rootName traceAll ⟨0⟩ name rootName) false commands
    have hother := run_follows (begin_follows otherRoot traceOther ⟨0⟩ name rootName) false others
    rw [contents_of_follows hlast.1, contents_of_follows hother.1, hsame name]

/-- Two runs that take turns with two tables in different ways, with and without an elaboration. -/
theorem run_isolates_two_tables :
    let load : Catalog.Entry :=
      ⟨"load", { execution? := some { exportStatement? := some ⟨.varnode, ⟨4, by decide⟩⟩ } },
        .unknown⟩
    let store : Catalog.Entry := ⟨"store", { pattern := [{ elements := [] }] }, .unknown⟩
    let commands : List Command :=
      [.register load, .setRootName "load", .add store, .register { load with constructor := {} }]
    let others : List Command :=
      [.ensure "move", .addAll [store, load], .setTraced true,
        .add { load with constructor := {} }, .finish]
    (∀ name, requestsFor name (requested commands) = requestsFor name (requested others)) ∧
      ∀ name, ((begin "instruction" false).run commands).1.catalog.contents name =
        ((begin "load" true).run others).1.catalog.contents name := by
  intro load store commands others
  have hsame : ∀ name,
      requestsFor name (requested commands) = requestsFor name (requested others) := by
    intro name
    show requestsFor name [load, store, _] = requestsFor name [store, load, _]
    by_cases hload : load.table = name
    · have hstore : store.table ≠ name := by
        rw [← hload]
        decide
      subst hload
      rw [Catalog.requests_for_ne hstore, Catalog.requests_for_self, Catalog.requests_for_self,
        Catalog.requests_for_ne hstore]
    · by_cases hstore : store.table = name
      · subst hstore
        rw [Catalog.requests_for_ne hload, Catalog.requests_for_self, Catalog.requests_for_self,
          Catalog.requests_for_ne hload]
      · rw [Catalog.requests_for_ne hload, Catalog.requests_for_ne hstore,
          Catalog.requests_for_ne hstore, Catalog.requests_for_ne hload]
  exact ⟨hsame, (run_isolates "instruction" false commands).2.2 "load" true others hsame⟩

end Session

end DecodeTables
