import DecodeTables.Proofs.Catalog.Settled
import DecodeTables.Proofs.Session.Growth
import DecodeTables.Proofs.Session.Isolation
import DecodeTables.Proofs.Table.Name

/-!
# Tables without a valid name

Any text can be used as the name of a table, and any text can be mentioned in a pattern. What keeps
constructors out of tables without a valid name is the check when they are registered. `run_names`
says that it does so in every session, and that a constructor whose pattern mentions such a name
spoils the verdict on the session for good: the table it asks for can never be defined.
-/

namespace DecodeTables

open Table (IsName)

namespace Catalog

variable {catalog : Catalog}

/-- Tables without a valid name have nothing. -/
theorem lasting_unnamed : Lasting fun _ table =>
    ¬ IsName table.name → table.constructors = [] ∧ table.exported = .none where
  created _ _ _ := ⟨rfl, rfl⟩
  renamed h _ := h
  traced h _ := h
  after {_ table} h request hname := by
    rw [(Table.key_after table request).1] at hname
    rw [Table.after_of_not_name hname]
    exact h hname

/-- An entry without a valid name for a table is rejected for that name. -/
theorem outcome_of_not_name (h : catalog.Indexed) {traceAll : Bool} {entries : List Entry}
    {event : Entry × Except Rejection Unit} (hmem : event ∈ catalog.events traceAll entries)
    (hname : ¬ IsName event.1.table) :
    event.2 = .error ⟨event.1.loc, .invalidTableName event.1.table⟩ := by
  obtain ⟨before, houtcome⟩ := reached_of_event hmem
  have hreached := indexed_register_all h traceAll before
  have htable := hreached.name_table_for event.1.table
  rw [houtcome, Table.register_of_not_name (htable.symm ▸ hname), htable]
  rfl

end Catalog

/-- An elaboration that ends finds fault with a constructor whose pattern continues with a table
that is not defined. -/
theorem Elaboration.answer_finish_of_undefined {workspace : Workspace} {constructor : Constructor}
    (hholds : workspace.catalog.Holds constructor) {name : String}
    (hmem : name ∈ constructor.pattern.subTables)
    (hundefined : workspace.catalog.isDefined name = false) (elaboration : Elaboration) :
    (elaboration.finish workspace).answer = false := by
  rw [← Bool.not_eq_true, answer_finish_iff]
  rintro ⟨-, hnone⟩
  obtain ⟨table, htable, hconstructor⟩ := hholds
  have hreported : Catalog.undefinedTable table constructor "referenced" name ∈
      elaboration.errors workspace.catalog := by
    refine List.mem_append_right _ (List.mem_flatMap.2 ⟨table, htable, ?_⟩)
    refine List.mem_flatMap.2 ⟨constructor, hconstructor, List.mem_append_left _ ?_⟩
    exact List.mem_map_of_mem (List.mem_filter.2 ⟨hmem, by rw [hundefined]; rfl⟩)
  rw [hnone] at hreported
  cases hreported

namespace Session

variable {session : Session}

/-- What holds of all events of commands holds of all events of a run. -/
theorem forall_history {holds : Catalog.Entry × Except Rejection Unit → Prop}
    (hattempts : ∀ {session : Session}, session.catalog.Indexed → ∀ command,
      ∀ event ∈ session.attempts command, holds event)
    (h : session.catalog.Indexed) (commands : List Command) :
    ∀ event ∈ session.history commands, holds event := by
  induction commands generalizing session with
  | nil => simp [history]
  | cons command commands ih =>
      intro event hmem
      rw [history, List.mem_append] at hmem
      rcases hmem with hmem | hmem
      · exact hattempts h command event hmem
      · exact ih (indexed_step h command) event hmem

/-- What was registered in a run is in a table at its end. -/
theorem holds_of_history (h : session.catalog.Indexed) {commands : List Command}
    {entry : Catalog.Entry} (hmem : (entry, .ok ()) ∈ session.history commands) :
    ∃ constructor, entry.request.constructor? = some constructor ∧
      (session.run commands).1.catalog.Holds constructor := by
  induction commands generalizing session with
  | nil => cases hmem
  | cons command commands ih =>
      have hnext := indexed_step h command
      rw [history, List.mem_append] at hmem
      rcases hmem with hmem | hmem
      · obtain ⟨constructor, hconstructor, hholds⟩ :=
          Catalog.holds_of_event (quiet_readied h command).indexed hmem
        rw [← catalog_step] at hholds
        exact ⟨constructor, hconstructor, (grows_run hnext commands).catalog.holds hholds⟩
      · exact ih hnext hmem

/-- Whatever a session was told, tables with constructors have valid names, and tables without one
have nothing. Whatever was to be registered in a table without a valid name was rejected for that
name, and the table is there and empty. Once a constructor was registered whose pattern mentions
such a name, every elaboration that ends finds fault. -/
theorem run_names (rootName : String) (traceAll : Bool) (commands : List Command) :
    let first := begin rootName traceAll
    let session := (first.run commands).1
    (∀ table ∈ session.catalog.tables,
        (table.constructors ≠ [] → IsName table.name) ∧
          (¬ IsName table.name → table.constructors = [] ∧ table.exported = .none)) ∧
      (∀ event ∈ first.history commands, ¬ IsName event.1.table →
        event.2 = .error ⟨event.1.loc, .invalidTableName event.1.table⟩ ∧
          ∃ table, session.catalog.table? event.1.table = some table ∧
            table.constructors = [] ∧ table.exported = .none) ∧
      ∀ entry name, (entry, .ok ()) ∈ first.history commands →
        name ∈ Pattern.mentions entry.constructor.pattern → ¬ IsName name →
          ∀ elaboration : Elaboration, (elaboration.finish session.workspace).answer = false := by
  intro first session
  have hbegin : first.catalog.Indexed := Catalog.indexed_empty rootName
  have hindexed : session.catalog.Indexed := indexed_run rootName traceAll commands
  have hunnamed : ∀ table ∈ session.catalog.tables, ¬ IsName table.name →
      table.constructors = [] ∧ table.exported = .none :=
    throughout_run Catalog.lasting_unnamed rootName traceAll commands
  refine ⟨?_, ?_, ?_⟩
  · intro table hmem
    refine ⟨fun hne => ?_, hunnamed table hmem⟩
    exact Classical.byContradiction fun hname => hne (hunnamed table hmem hname).1
  · intro event hmem hname
    refine ⟨?_, ?_⟩
    · exact forall_history (fun h command event hmem => Catalog.outcome_of_not_name
        (quiet_readied h command).indexed hmem) hbegin commands event hmem hname
    · have hrequested : ∃ entry ∈ requested commands, entry.table = event.1.table := by
        rw [← entries_history first commands]
        exact ⟨event.1, List.mem_map_of_mem hmem, rfl⟩
      obtain ⟨table, htable⟩ :=
        Option.isSome_iff_exists.1 (table_run_is_some hbegin (Or.inr hrequested))
      obtain ⟨hin, hsame⟩ := hindexed.table_eq_some_iff.1 htable
      exact ⟨table, htable, hunnamed table hin (hsame ▸ hname)⟩
  · intro entry name hmem hmentions hname elaboration
    obtain ⟨constructor, hconstructor, hholds⟩ := holds_of_history hbegin hmem
    -- the table that is asked for, if there is one, has nothing
    have hundefined : session.catalog.isDefined name = false := by
      rw [← Bool.not_eq_true, hindexed.is_defined_iff, Classical.not_not]
      rintro table hin rfl
      exact (hunnamed table hin hname).1
    exact Elaboration.answer_finish_of_undefined hholds
      ((Catalog.mem_sub_tables_iff hconstructor).2 hmentions) hundefined elaboration

/-- A pattern that mentions `9x` is accepted, and a constructor for a table of that name is not. -/
theorem run_names_digit_first :
    let mention : Pattern.WrittenBlock := { elements := [{ term := .subTable "9x" }] }
    let root : Catalog.Entry := { table := "insn", constructor := { pattern := [mention] } }
    let sub : Catalog.Entry := { table := "9x", loc := { file := 1, line := 4 } }
    let commands : List Command := [.register root, .addAll [sub, sub]]
    let first := begin "insn" false
    let session := (first.run commands).1
    let rejection : Rejection := ⟨sub.loc, .invalidTableName "9x"⟩
    (¬ IsName "9x" ∧ first.history commands =
        [(root, .ok ()), (sub, .error rejection), (sub, .error rejection)]) ∧
      (session.catalog.table? "9x").map Table.constructors = some [] ∧
      (Elaboration.finish {} session.workspace).answer = false := by
  intro mention root sub commands first session rejection
  have hname : ¬ IsName "9x" := by decide
  have hhistory : first.history commands =
      [(root, .ok ()), (sub, .error rejection), (sub, .error rejection)] := by decide
  obtain ⟨-, hrejected, hspoiled⟩ := run_names "insn" false commands
  have hsub : (sub, .error rejection) ∈ first.history commands := by
    rw [hhistory]
    simp
  have hroot : (root, .ok ()) ∈ first.history commands := by
    rw [hhistory]
    simp
  obtain ⟨-, table, htable, hempty, -⟩ := hrejected _ hsub hname
  refine ⟨⟨hname, hhistory⟩, ?_, hspoiled root "9x" hroot (by decide) hname {}⟩
  rw [htable, Option.map_some, hempty]

end Session

end DecodeTables
