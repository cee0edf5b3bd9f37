import Mathlib.Data.List.Basic
import DecodeTables.Elaboration
import DecodeTables.Proofs.Catalog.Lookup
import DecodeTables.Proofs.Diagnostic.Report

/-!
# What is left to report in the end

When all constructors are registered, some errors may be `due`: for the root, if it has to have
constructors and has none, and for tables that constructors use in vain. `errors_eq_due` says that
an elaboration that ends reports exactly these, though it finds tables by symbols, and `due` looks
at their names only. `answer_finish_iff` says what the verdict is then.
-/

namespace DecodeTables

namespace Catalog

/-- No table called `name` has constructors: there is none, or it is empty. -/
def Lacks (catalog : Catalog) (name : String) : Prop :=
  ∀ table ∈ catalog.tables, table.name = name → table.constructors = []

/-- A table called `name` is there, but it is empty. -/
def HasEmpty (catalog : Catalog) (name : String) : Prop :=
  ∃ table ∈ catalog.tables, table.name = name ∧ table.constructors = []

instance (catalog : Catalog) (name : String) : Decidable (catalog.Lacks name) :=
  inferInstanceAs <| Decidable <|
    ∀ table ∈ catalog.tables, table.name = name → table.constructors = []

instance (catalog : Catalog) (name : String) : Decidable (catalog.HasEmpty name) :=
  inferInstanceAs <| Decidable <|
    ∃ table ∈ catalog.tables, table.name = name ∧ table.constructors = []

/-- The errors due for a constructor of `table`: one for each table that its pattern continues with
in vain, and then one for each empty table that it builds. -/
def dueFor (catalog : Catalog) (table : Table) (constructor : Constructor) : List Diagnostic :=
  (constructor.pattern.subTables.filter fun name => catalog.Lacks name).map
      (undefinedTable table constructor "referenced") ++
    (constructor.builds.filter fun name => catalog.HasEmpty name).map
      (undefinedTable table constructor "built")

/-- The errors due in the end: one for the root, if it has to have constructors, and then those due
for constructors, in the order of tables and of the constructors in each. -/
def due (catalog : Catalog) (requiresRoot : Bool) : List Diagnostic :=
  (if requiresRoot ∧ catalog.Lacks catalog.rootName then
      [.error .unknown s!"root table '{catalog.rootName}' has no constructors"]
    else []) ++
    catalog.tables.flatMap fun table => table.constructors.flatMap (catalog.dueFor table)

variable {catalog : Catalog}

/-- A name is defined unless no table of that name has constructors. -/
theorem Indexed.is_defined_iff (h : catalog.Indexed) (name : String) :
    catalog.isDefined name = true ↔ ¬ catalog.Lacks name := by
  rw [isDefined, Option.any_eq_true, Lacks]
  constructor
  · intro hdefined hlacks
    obtain ⟨table, htable, hnonempty⟩ := hdefined
    obtain ⟨hmem, hname⟩ := h.table_eq_some_iff.1 htable
    simp [Table.isEmpty, hlacks table hmem hname] at hnonempty
  · intro hlacks
    simp only [Classical.not_forall] at hlacks
    obtain ⟨table, hmem, hname, hnonempty⟩ := hlacks
    refine ⟨table, h.table_eq_some_iff.2 ⟨hmem, hname⟩, ?_⟩
    simpa [Table.isEmpty] using hnonempty

/-- A name that has a table and is not defined is that of an empty table. -/
theorem Indexed.has_empty_iff (h : catalog.Indexed) (name : String) :
    ((catalog.find? name).isSome && !catalog.isDefined name) = true ↔ catalog.HasEmpty name := by
  rw [h.find_is_some, isDefined, HasEmpty]
  constructor
  · intro hempty
    cases htable : catalog.table? name with
    | none => simp [htable] at hempty
    | some table =>
        obtain ⟨hmem, hname⟩ := h.table_eq_some_iff.1 htable
        refine ⟨table, hmem, hname, ?_⟩
        simpa [htable, Table.isEmpty] using hempty
  · intro hempty
    obtain ⟨table, hmem, hname, hnone⟩ := hempty
    rw [h.table_eq_some_iff.2 ⟨hmem, hname⟩]
    simp [Table.isEmpty, hnone]

/-- The undefined tables that a constructor uses are those that errors are due for. -/
theorem undefined_by_eq_due (h : catalog.Indexed) (table : Table) (constructor : Constructor) :
    catalog.undefinedBy table constructor = catalog.dueFor table constructor := by
  have hreferenced : (fun name => !catalog.isDefined name) = fun name =>
      decide (catalog.Lacks name) := by
    funext name
    rw [Bool.eq_iff_iff, Bool.not_eq_true', decide_eq_true_iff, ← Bool.not_eq_true,
      h.is_defined_iff, Classical.not_not]
  have hbuilt : (fun name => (catalog.find? name).isSome && !catalog.isDefined name) = fun name =>
      decide (catalog.HasEmpty name) := by
    funext name
    rw [Bool.eq_iff_iff, h.has_empty_iff, decide_eq_true_iff]
  rw [undefinedBy, hreferenced, hbuilt]
  rfl

end Catalog

namespace Elaboration

/-- An elaboration that ends reports what is due. -/
theorem errors_eq_due {catalog : Catalog} (h : catalog.Indexed) (elaboration : Elaboration) :
    elaboration.errors catalog = catalog.due elaboration.options.requiresRoot := by
  have hroot : (if elaboration.options.requiresRoot = true then catalog.undefinedRoot else []) =
      if elaboration.options.requiresRoot = true ∧ catalog.Lacks catalog.rootName then
        [.error .unknown s!"root table '{catalog.rootName}' has no constructors"]
      else [] := by
    by_cases hlacks : catalog.Lacks catalog.rootName
    · have hundefined : ¬ catalog.isDefined catalog.rootName = true := fun hdefined =>
        (h.is_defined_iff _).1 hdefined hlacks
      rw [Catalog.undefinedRoot, if_neg hundefined]
      simp only [hlacks, and_true]
    · rw [Catalog.undefinedRoot, if_pos ((h.is_defined_iff _).2 hlacks), ite_self]
      simp only [hlacks, and_false, ↓reduceIte]
  have htables : catalog.undefinedTables =
      catalog.tables.flatMap fun table => table.constructors.flatMap (catalog.dueFor table) := by
    refine List.flatMap_congr fun table _ => List.flatMap_congr fun constructor _ => ?_
    exact Catalog.undefined_by_eq_due h table constructor
  rw [errors, hroot, htables]
  rfl

/-- Everything that is left to be reported in the end is an error. -/
theorem severity_errors (elaboration : Elaboration) (catalog : Catalog) :
    ∀ diagnostic ∈ elaboration.errors catalog, diagnostic.severity = .error := by
  intro diagnostic hmem
  simp only [errors, Catalog.undefinedRoot, Catalog.undefinedTables, Catalog.undefinedBy,
    List.mem_append, List.mem_flatMap, List.mem_map] at hmem
  rcases hmem with hroot | ⟨table, -, constructor, -, ⟨name, -, rfl⟩ | ⟨name, -, rfl⟩⟩
  · split at hroot
    · split at hroot
      · cases hroot
      · rw [List.mem_singleton.1 hroot]
        rfl
    · cases hroot
  · rfl
  · rfl

/-- The verdict is that no error was reported before and none is left. -/
theorem answer_finish_iff (elaboration : Elaboration) (workspace : Workspace) :
    (elaboration.finish workspace).answer = true ↔
      workspace.log.errors = 0 ∧ elaboration.errors workspace.catalog = [] := by
  rw [finish, beq_iff_eq, Log.errors_report_all, Log.count_errors (severity_errors _ _),
    Nat.add_eq_zero_iff, List.length_eq_zero_iff]

/-- Ending twice in a row comes to the same verdict. -/
theorem answer_finish_again (elaboration : Elaboration) (workspace : Workspace) :
    let finished := elaboration.finish workspace
    (finished.elaboration.finish finished.workspace).answer = finished.answer := by
  intro finished
  have hcount : finished.answer = true ↔ finished.workspace.log.errors = 0 := beq_iff_eq
  rw [Bool.eq_iff_iff, answer_finish_iff, ← hcount]
  -- what was left the first time was empty if the verdict was good
  exact and_iff_left_of_imp fun hanswer => ((answer_finish_iff elaboration workspace).1 hanswer).2

end Elaboration

end DecodeTables
