import DecodeTables.Catalog

/-!
# Undefined tables

A table is undefined if it has no constructors, or if it is not there at all. When all constructors
are registered, the root has to be defined, and so has every table that a constructor uses.
-/

namespace DecodeTables

namespace Catalog

/-- The report of an undefined table that a constructor of `table` uses in the way `how` says. -/
def undefinedTable (table : Table) (constructor : Constructor) (how name : String) : Diagnostic :=
  .error constructor.loc
    s!"table '{name}' {how} by a constructor of '{table.name}' has no constructors"

/-- The undefined tables that a constructor of `table` uses: those that its pattern continues with,
and then those that it builds. A name that is built and has no table stands for something else. -/
def undefinedBy (catalog : Catalog) (table : Table) (constructor : Constructor) :
    List Diagnostic :=
  let referenced := constructor.pattern.subTables.filter fun name => !catalog.isDefined name
  let built := constructor.builds.filter fun name =>
    (catalog.find? name).isSome && !catalog.isDefined name
  referenced.map (undefinedTable table constructor "referenced") ++
    built.map (undefinedTable table constructor "built")

/-- The undefined tables that constructors use, in the order of tables and constructors. -/
def undefinedTables (catalog : Catalog) : List Diagnostic :=
  catalog.tables.flatMap fun table =>
    table.constructors.flatMap fun constructor => catalog.undefinedBy table constructor

/-- The report of an undefined root. -/
def undefinedRoot (catalog : Catalog) : List Diagnostic :=
  if catalog.isDefined catalog.rootName then []
  else [.error .unknown s!"root table '{catalog.rootName}' has no constructors"]

end Catalog

end DecodeTables
