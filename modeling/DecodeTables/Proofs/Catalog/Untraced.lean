import DecodeTables.Catalog.Undefined
import DecodeTables.Proofs.Catalog.Lookup

/-!
# Catalogs that are not traced

`Catalog.untraced` is a catalog once nothing of it is traced any more. Whatever is done with it is
what is done with the catalog itself, except for what the trace is told: so say
`register_untraced` and `ensure_untraced`, and `undefined_tables_untraced` and
`undefined_root_untraced` say that the same tables are undefined.
-/

namespace DecodeTables

namespace Table

/-- A table when it is not traced. -/
def untraced (table : Table) : Table :=
  { table with isTraced := false }

/-- An attempt of which the trace is told nothing. -/
def Attempt.untraced (attempt : Attempt) : Attempt where
  table := attempt.table.untraced
  outcome := attempt.outcome
  trace := []

/-- A table takes in the same constructors whether or not it is traced. -/
theorem register_untraced (table : Table) (written : Constructor.Written) (loc : Location) :
    table.untraced.register written loc = (table.register written loc).map untraced := by
  cases hname : isValidName table.name with
  | false =>
      have hname' : isValidName table.untraced.name = false := hname
      rw [register_of_invalid_name hname, register_of_invalid_name hname']
      rfl
  | true =>
      have hname' : isValidName table.untraced.name = true := hname
      cases hresult : Constructor.elaborate written loc with
      | error rejection =>
          rw [register_of_fault hname hresult, register_of_fault hname' hresult]
          rfl
      | ok constructor =>
          have hfits : table.untraced.fits constructor.exported =
              table.fits constructor.exported := rfl
          rw [register_of_elaborate hname hresult, register_of_elaborate hname' hresult, hfits]
          cases table.fits constructor.exported <;> rfl

/-- An attempt comes to the same whether or not the trace is told. -/
theorem attempt_untraced (traceAll : Bool) (table : Table) (written : Constructor.Written)
    (loc : Location) :
    table.untraced.attempt false written loc = (table.attempt traceAll written loc).untraced := by
  simp only [attempt, Attempt.untraced, register_untraced]
  cases table.register written loc <;> rfl

end Table

namespace Catalog

/-- A catalog when nothing is traced. -/
def untraced (catalog : Catalog) : Catalog :=
  catalog.setTraced false

/-- A name has the same table, whether or not it is traced. -/
theorem table_for_untraced (catalog : Catalog) (name : String) :
    catalog.untraced.tableFor name = (catalog.tableFor name).untraced := by
  rw [tableFor, untraced, table_set_traced, tableFor]
  cases catalog.table? name <;> rfl

theorem create_untraced (catalog : Catalog) (name : String) :
    catalog.untraced.create name = (catalog.create name).untraced := by
  simp only [create, untraced, setTraced, size, List.length_map, List.map_append]
  rfl

/-- Tables are numbered and created in the same way, whether or not they are traced. -/
theorem ensure_untraced (catalog : Catalog) (name : String) :
    catalog.untraced.ensure name =
      ((catalog.ensure name).1.untraced, (catalog.ensure name).2) := by
  have hnames : catalog.untraced.names = catalog.names := rfl
  have hindex (symbol : Symbol) : catalog.untraced.index? symbol = catalog.index? symbol := rfl
  have hsize : catalog.untraced.size = catalog.size := List.length_map _
  simp only [ensure, hnames, hindex, hsize, create_untraced]
  cases catalog.index? (catalog.names.intern name).2 <;> rfl

/-- A registration comes to the same, apart from what the trace is told. -/
theorem register_untraced (traceAll : Bool) (catalog : Catalog) (entry : Entry) :
    catalog.untraced.register false entry =
      ((catalog.register traceAll entry).1.untraced,
        (catalog.register traceAll entry).2.untraced) := by
  have hset (opened : Catalog) (id : Nat) (table : Table) :
      { opened.untraced with tables := opened.untraced.tables.set id table.untraced } =
        { opened with tables := opened.tables.set id table }.untraced := by
    simp only [untraced, setTraced, List.map_set]
    rfl
  simp only [register, ensure_untraced, table_for_untraced, Table.attempt_untraced traceAll]
  rw [← hset]
  rfl

theorem set_root_name_untraced (catalog : Catalog) (rootName : String) :
    catalog.untraced.setRootName rootName = (catalog.setRootName rootName).untraced := by
  simp only [setRootName, untraced, setTraced, List.map_map]
  rfl

/-- Whatever was said before about tracing, nothing is traced in the end. -/
theorem set_traced_untraced (catalog : Catalog) (isTraced : Bool) :
    catalog.untraced.setTraced false = (catalog.setTraced isTraced).untraced := by
  simp only [untraced, setTraced, List.map_map]
  rfl

/-- A name is defined whether or not its table is traced. -/
theorem is_defined_untraced (catalog : Catalog) (name : String) :
    catalog.untraced.isDefined name = catalog.isDefined name := by
  rw [isDefined, untraced, table_set_traced, isDefined]
  cases catalog.table? name <;> rfl

theorem undefined_root_untraced (catalog : Catalog) :
    catalog.untraced.undefinedRoot = catalog.undefinedRoot := by
  rw [undefinedRoot, is_defined_untraced]
  rfl

theorem undefined_tables_untraced (catalog : Catalog) :
    catalog.untraced.undefinedTables = catalog.undefinedTables := by
  have hused (table : Table) (constructor : Constructor) :
      catalog.untraced.undefinedBy table.untraced constructor =
        catalog.undefinedBy table constructor := by
    simp only [undefinedBy, is_defined_untraced]
    rfl
  show (catalog.tables.map Table.untraced).flatMap _ = _
  rw [List.flatMap_map, undefinedTables]
  simp only [hused]
  rfl

end Catalog

end DecodeTables
