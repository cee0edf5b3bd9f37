import DecodeTables.Table

/-!
# The tables of a specification

A `Catalog` has one table for every name that was used for one. Tables are numbered from zero in
the order in which they were first used, and are never removed. Names are interned together with
the names given to the root, so the root may be named before it has a table, and may be renamed.
-/

namespace DecodeTables

/-- The name of the root, unless another one is asked for. -/
def defaultRootName : String :=
  "instruction"

/-- The tables of a specification, and the name of the root among them. The index has the numbers of
tables by the symbols of their names. Like symbols, the numbers of tables have no bound here. They
agree with numbers that are kept in 32 bits as long as there are fewer than `2 ^ 32` names. -/
structure Catalog where
  names : Interner
  rootName : String
  isTraced : Bool := false
  tables : List Table := []
  index : List (Symbol × Nat) := []

namespace Catalog

/-- The catalog without tables whose root is called `rootName`. -/
def empty (rootName : String) : Catalog where
  names := ({} : Interner).insert rootName
  rootName := rootName

/-- The number of tables. -/
def size (catalog : Catalog) : Nat :=
  catalog.tables.length

/-- The number of the table whose name has the given symbol. -/
def index? (catalog : Catalog) (symbol : Symbol) : Option Nat :=
  catalog.index.lookup symbol

/-- The number of the table called `name`. -/
def find? (catalog : Catalog) (name : String) : Option Nat :=
  (catalog.names.find? name).bind catalog.index?

/-- The table called `name`. -/
def table? (catalog : Catalog) (name : String) : Option Table :=
  (catalog.find? name).bind fun id => catalog.tables[id]?

/-- The number of the root, if it has a table. -/
def root? (catalog : Catalog) : Option Nat :=
  catalog.find? catalog.rootName

/-- Says whether the table called `name` is there and has constructors. -/
def isDefined (catalog : Catalog) (name : String) : Bool :=
  (catalog.table? name).any fun table => !table.isEmpty

/-- The empty table called `name`, as this catalog would create it. -/
def newTable (catalog : Catalog) (name : String) : Table :=
  { Table.newEmpty (catalog.names.intern name).2 name catalog.rootName with
    isTraced := catalog.isTraced }

/-- The table called `name`, or else the empty one that would be created. -/
def tableFor (catalog : Catalog) (name : String) : Table :=
  (catalog.table? name).getD (catalog.newTable name)

/-- The catalog with an empty table called `name` after the others. -/
def create (catalog : Catalog) (name : String) : Catalog :=
  let (names, symbol) := catalog.names.intern name
  { catalog with
    names
    tables := catalog.tables ++ [catalog.newTable name]
    index := catalog.index ++ [(symbol, catalog.size)] }

/-- Gives the catalog that has a table called `name`, created if it was not there, and the number
of that table. -/
def ensure (catalog : Catalog) (name : String) : Catalog × Nat :=
  let (names, symbol) := catalog.names.intern name
  match catalog.index? symbol with
  | some id => ({ catalog with names }, id)
  | none => (catalog.create name, catalog.size)

/-- Gives the root another name. -/
def setRootName (catalog : Catalog) (rootName : String) : Catalog :=
  { catalog with
    names := catalog.names.insert rootName
    rootName
    tables := catalog.tables.map fun table => { table with rootName } }

/-- Traces all tables, or stops tracing them, both those that are there and those to come. -/
def setTraced (catalog : Catalog) (isTraced : Bool) : Catalog :=
  { catalog with isTraced, tables := catalog.tables.map fun table => { table with isTraced } }

/-- A constructor as written, with its place and the name of its table. -/
structure Entry where
  table : String := ""
  constructor : Constructor.Written := {}
  loc : Location := .unknown
deriving DecidableEq, Repr

/-- Attempts to register the constructor of an entry into its table, which is created if it was not
there. Gives the catalog afterwards, and what the attempt came to. -/
def register (traceAll : Bool) (catalog : Catalog) (entry : Entry) : Catalog × Table.Attempt :=
  let (opened, id) := catalog.ensure entry.table
  let attempt := (catalog.tableFor entry.table).attempt traceAll entry.constructor entry.loc
  ({ opened with tables := opened.tables.set id attempt.table }, attempt)

end Catalog

end DecodeTables
