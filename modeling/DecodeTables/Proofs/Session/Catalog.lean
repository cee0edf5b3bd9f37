import DecodeTables.Proofs.Catalog.Operations
import DecodeTables.Proofs.Session.Attempts

/-!
# The catalog of a session

Every command comes to some operations on the catalog, `catalog_step_operations`, so the catalog of
a session is what `operationsOf` its commands make of a catalog without tables, `catalog_run`. What
holds of all such catalogs holds in every session. `run_root_agrees` says so of the root: the name
that the catalog has for it and the names that all tables have for it never differ, whatever is
renamed, created or begun in between.
-/

namespace DecodeTables

open Catalog (Operation)

namespace Session

/-- The operations with which an elaboration is begun if there is none. -/
def beginning (session : Session) : List Operation :=
  match session.elaboration? with
  | some _ => []
  | none => [.setRootName defaultRootName, .setTraced false]

/-- The operations that a command comes to before it registers its entries. -/
def preparations (session : Session) : Command → List Operation
  | .start options => [.setRootName options.rootName, .setTraced options.isTraced]
  | .ensure table => [.ensure table]
  | .find table => [.find table]
  | .root => [.root]
  | .setRootName name => [.setRootName name]
  | .setTraced isTraced => [.setTraced isTraced]
  | .add _ => session.beginning
  | .addAll _ => session.beginning
  | .finish => session.beginning
  | _ => []

/-- The operations on the catalog that commands come to, in order. -/
def operationsOf (session : Session) : List Command → List Operation
  | [] => []
  | command :: commands =>
      session.preparations command ++ command.entries.map Operation.register ++
        (session.step command).session.operationsOf commands

variable {session : Session}

/-- Registering entries is one operation for each entry. -/
theorem register_all_operations (traceAll : Bool) (catalog : Catalog)
    (entries : List Catalog.Entry) :
    (catalog.registerAll traceAll entries).1 =
      catalog.operateAll traceAll (entries.map Operation.register) := by
  induction entries generalizing catalog with
  | nil => rfl
  | cons entry entries ih => exact ih _

/-- Beginning an elaboration comes to operations on the catalog. -/
theorem catalog_current (session : Session) (traceAll : Bool) :
    session.current.2.catalog = session.catalog.operateAll traceAll session.beginning := by
  unfold current beginning
  cases session.elaboration? <;> rfl

/-- What a command does before it registers anything comes to operations on the catalog. -/
theorem readied_operations (session : Session) (traceAll : Bool) (command : Command) :
    session.readied command =
      session.catalog.operateAll traceAll (session.preparations command) := by
  cases command with
  | add | addAll => exact catalog_current session traceAll
  | finish =>
      show (session.elaborating .verdict Elaboration.finish).session.catalog = _
      rw [elaborating_eq]
      exact catalog_current session traceAll
  | _ => rfl

/-- A command comes to operations on the catalog. -/
theorem catalog_step_operations (session : Session) (command : Command) :
    (session.step command).session.catalog =
      session.catalog.operateAll session.workspace.traceAll
        (session.preparations command ++ command.entries.map Operation.register) := by
  rw [catalog_step, register_all_operations, readied_operations session session.workspace.traceAll,
    Catalog.operate_all_append]

/-- A command leaves an indexed catalog indexed. -/
theorem indexed_step (h : session.catalog.Indexed) (command : Command) :
    (session.step command).session.catalog.Indexed := by
  rw [catalog_step_operations]
  exact Catalog.indexed_operate_all h _ _

/-- A run comes to the operations of its commands. -/
theorem catalog_run (session : Session) (commands : List Command) :
    (session.run commands).1.catalog =
      session.catalog.operateAll session.workspace.traceAll (session.operationsOf commands) := by
  induction commands generalizing session with
  | nil => rfl
  | cons command commands ih =>
      rw [operationsOf, Catalog.operate_all_append, ← catalog_step_operations,
        ← trace_all_step session command]
      exact ih (session.step command).session

/-- So does a run. -/
theorem indexed_run_of_indexed (h : session.catalog.Indexed) (commands : List Command) :
    (session.run commands).1.catalog.Indexed := by
  rw [catalog_run]
  exact Catalog.indexed_operate_all h _ _

/-- Whatever a session was told, its catalog is indexed. -/
theorem indexed_run (rootName : String) (traceAll : Bool) (commands : List Command) :
    ((begin rootName traceAll).run commands).1.catalog.Indexed := by
  apply indexed_run_of_indexed
  exact Catalog.indexed_empty rootName

/-- Whatever a session was told, its tables have every lasting property. -/
theorem throughout_run {holds : String → Table → Prop} (h : Catalog.Lasting holds)
    (rootName : String) (traceAll : Bool) (commands : List Command) :
    ((begin rootName traceAll).run commands).1.catalog.Throughout holds := by
  rw [catalog_run]
  exact h.operate_all rootName _ _

/-- Tables know the name of the root. -/
theorem lasting_root_name : Catalog.Lasting fun rootName table => table.rootName = rootName where
  created _ _ := rfl
  renamed _ _ := rfl
  traced h _ := h
  after h request := (Table.root_name_after _ request).trans h

/-- A table is the root exactly if it has the name that the catalog has for the root. -/
theorem is_root_iff {catalog : Catalog} {table : Table}
    (h : catalog.Throughout fun rootName table => table.rootName = rootName)
    (hmem : table ∈ catalog.tables) : table.isRoot = true ↔ table.name = catalog.rootName := by
  rw [Table.isRoot, beq_iff_eq, h table hmem]

/-- Whatever a session was told, each table is the root exactly if it has the name that the catalog
has for the root, and exactly if the catalog finds the root under its number. So no two tables are
the root, and none is exactly if the catalog does not find the root. The name of the root is the one
that was given last. -/
theorem run_root_agrees (rootName : String) (traceAll : Bool) (commands : List Command) :
    let first := begin rootName traceAll
    let catalog := (first.run commands).1.catalog
    (∀ id : Fin catalog.tables.length,
      (catalog.tables[id].isRoot = true ↔ catalog.tables[id].name = catalog.rootName) ∧
        (catalog.tables[id].isRoot = true ↔ catalog.root? = some id.val)) ∧
      (catalog.tables.filter Table.isRoot).length ≤ 1 ∧
      (catalog.root? = none ↔ catalog.tables.filter Table.isRoot = []) ∧
      catalog.rootName =
        ((first.operationsOf commands).filterMap Operation.rootName?).getLast?.getD rootName := by
  intro first catalog
  have hindexed : catalog.Indexed := indexed_run rootName traceAll commands
  have hroot {table : Table} (hmem : table ∈ catalog.tables) :
      table.isRoot = true ↔ table.name = catalog.rootName :=
    is_root_iff (throughout_run lasting_root_name rootName traceAll commands) hmem
  refine ⟨?_, ?_, ?_, ?_⟩
  · intro id
    have hmem : catalog.tables[id] ∈ catalog.tables := List.getElem_mem id.isLt
    refine ⟨hroot hmem, ?_⟩
    rw [hroot hmem, Catalog.root?, hindexed.find_eq_some_iff, List.getElem?_eq_getElem id.isLt,
      Option.map_some, Option.some.injEq]
    exact ⟨fun hname => ⟨id.isLt, hname⟩, fun hfound => hfound.2⟩
  · -- two roots would be two tables with the name of the root
    have hdistinct := (List.pairwise_map.1 hindexed.names_nodup).filter Table.isRoot
    have hnamed : ∀ table ∈ catalog.tables.filter Table.isRoot, table.name = catalog.rootName := by
      intro table hmem
      rw [List.mem_filter] at hmem
      exact (hroot hmem.1).1 hmem.2
    match hroots : catalog.tables.filter Table.isRoot with
    | [] => simp
    | [_] => simp
    | table :: other :: _ =>
        rw [hroots] at hdistinct hnamed
        have hne := (List.pairwise_cons.1 hdistinct).1 other List.mem_cons_self
        exact absurd ((hnamed table List.mem_cons_self).trans (hnamed other (by simp)).symm) hne
  · rw [Catalog.root?, hindexed.find_eq_find_idx, List.findIdx?_eq_none_iff,
      List.filter_eq_nil_iff]
    refine forall_congr' fun table => forall_congr' fun hmem => ?_
    rw [hroot hmem, decide_eq_false_iff_not]
  · show (first.run commands).1.catalog.rootName = _
    rw [catalog_run, Catalog.root_name_operate_all]
    rfl

end Session

end DecodeTables
