import DecodeTables.Proofs.Catalog.Operations

/-!
# The settings of a catalog and of its tables

The name of the root, and whether to trace, are settings of a catalog that each of its tables has
once more. In a `Uniform` catalog they are the same everywhere. Every operation keeps a catalog
uniform, whether it comes before or after the tables are created, `uniform_operate_all`, and
`is_traced_operate_all` says that a catalog traces if it was told so last.
-/

namespace DecodeTables.Catalog

/-- Every table of a catalog has its settings. -/
def Uniform (catalog : Catalog) : Prop :=
  ∀ table ∈ catalog.tables,
    table.rootName = catalog.rootName ∧ table.isTraced = catalog.isTraced

/-- Whether to trace from then on, where an operation decides it. -/
def Operation.isTraced? : Operation → Option Bool
  | setTraced isTraced => some isTraced
  | _ => none

variable {catalog : Catalog}

/-- A catalog without tables is uniform. -/
theorem uniform_empty (rootName : String) : (empty rootName).Uniform :=
  fun _ hmem => absurd hmem List.not_mem_nil

/-- So has the table for a name, whether or not it is there. -/
theorem Uniform.table_for (h : catalog.Uniform) (name : String) :
    (catalog.tableFor name).rootName = catalog.rootName ∧
      (catalog.tableFor name).isTraced = catalog.isTraced :=
  forall_table_for h (fun _ => ⟨rfl, rfl⟩) name

/-- Ensuring a name does not change whether to trace. -/
theorem is_traced_ensure (catalog : Catalog) (name : String) :
    (catalog.ensure name).1.isTraced = catalog.isTraced := by
  simp only [ensure]
  cases catalog.index? (catalog.names.intern name).2 <;> rfl

/-- Nor does a registration. -/
theorem is_traced_register (traceAll : Bool) (catalog : Catalog) (entry : Entry) :
    (catalog.register traceAll entry).1.isTraced = catalog.isTraced :=
  is_traced_ensure catalog entry.table

theorem uniform_ensure (h : catalog.Uniform) (name : String) :
    (catalog.ensure name).1.Uniform := by
  rw [Uniform, root_name_ensure, is_traced_ensure]
  exact forall_ensure h (fun _ => ⟨rfl, rfl⟩) name

theorem uniform_register (h : catalog.Uniform) (traceAll : Bool) (entry : Entry) :
    (catalog.register traceAll entry).1.Uniform := by
  rw [Uniform, root_name_register, is_traced_register]
  refine forall_register h (fun _ => ⟨rfl, rfl⟩) ?_ traceAll entry
  intro table htable request
  rwa [Table.root_name_after, Table.is_traced_after]

theorem uniform_set_root_name (h : catalog.Uniform) (rootName : String) :
    (catalog.setRootName rootName).Uniform := by
  intro table hmem
  obtain ⟨former, hformer, rfl⟩ := List.mem_map.1 hmem
  exact ⟨rfl, (h former hformer).2⟩

theorem uniform_set_traced (h : catalog.Uniform) (isTraced : Bool) :
    (catalog.setTraced isTraced).Uniform := by
  intro table hmem
  obtain ⟨former, hformer, rfl⟩ := List.mem_map.1 hmem
  exact ⟨(h former hformer).1, rfl⟩

/-- The root keeps its name if it is given the same one again. -/
theorem set_root_name_self (h : catalog.Uniform)
    (hinterned : (catalog.names.find? catalog.rootName).isSome = true) :
    catalog.setRootName catalog.rootName = catalog := by
  obtain ⟨symbol, hsymbol⟩ := Option.isSome_iff_exists.1 hinterned
  have hnames : catalog.names.insert catalog.rootName = catalog.names :=
    congrArg Prod.fst (Interner.intern_of_find hsymbol)
  have htables : (catalog.tables.map fun table => { table with rootName := catalog.rootName }) =
      catalog.tables.map id :=
    List.map_congr_left fun table hmem => by rw [← (h table hmem).1]; rfl
  rw [setRootName, hnames, htables, List.map_id]

/-- A catalog that is told again whether to trace stays as it is. -/
theorem set_traced_self (h : catalog.Uniform) :
    catalog.setTraced catalog.isTraced = catalog := by
  have htables : (catalog.tables.map fun table => { table with isTraced := catalog.isTraced }) =
      catalog.tables.map id :=
    List.map_congr_left fun table hmem => by rw [← (h table hmem).2]; rfl
  rw [setTraced, htables, List.map_id]

theorem uniform_operate (h : catalog.Uniform) (traceAll : Bool) (operation : Operation) :
    (catalog.operate traceAll operation).Uniform := by
  cases operation with
  | ensure name => exact uniform_ensure h name
  | find | root => exact h
  | setRootName rootName => exact uniform_set_root_name h rootName
  | setTraced isTraced => exact uniform_set_traced h isTraced
  | register entry => exact uniform_register h traceAll entry

/-- Whatever is done with a catalog, its tables have the settings that it has. -/
theorem uniform_operate_all (h : catalog.Uniform) (traceAll : Bool)
    (operations : List Operation) : (catalog.operateAll traceAll operations).Uniform := by
  induction operations generalizing catalog with
  | nil => exact h
  | cons operation operations ih => exact ih (uniform_operate h traceAll operation)

/-- A catalog traces if the last operation that decided it said so. -/
theorem is_traced_operate_all (traceAll : Bool) (catalog : Catalog)
    (operations : List Operation) :
    (catalog.operateAll traceAll operations).isTraced =
      (operations.filterMap Operation.isTraced?).getLast?.getD catalog.isTraced := by
  apply setting_operate_all
  intro catalog operation
  cases operation with
  | ensure name => exact is_traced_ensure catalog name
  | register entry => exact is_traced_register traceAll catalog entry
  | find | root | setRootName | setTraced => rfl

end DecodeTables.Catalog
