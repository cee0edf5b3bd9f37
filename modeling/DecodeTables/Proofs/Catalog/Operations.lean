import DecodeTables.Proofs.Catalog.Lookup

/-!
# Catalogs as ordered maps

An `Operation` is something that can be done with a catalog, and `operateAll` does operations one
after another. Whatever is done with a catalog that begins without tables, `operate_all_ordered`
says that it is an ordered map from names to tables: the names are those that operations open, in
order of first use, and the way through symbols finds each of them. The texts that are interned are
the opened names and the names given to the root.

`Lasting` properties of tables are those that every operation keeps.
-/

namespace DecodeTables.Catalog

/-- Something that can be done with a catalog. -/
inductive Operation where
  /-- Number the table called `name`, and create it if it is not there. -/
  | ensure (name : String)
  /-- Look up the number of the table called `name`. -/
  | find (name : String)
  /-- Look up the root. -/
  | root
  /-- Give the root another name. -/
  | setRootName (name : String)
  /-- Trace all tables, or stop tracing them. -/
  | setTraced (isTraced : Bool)
  /-- Register the constructor of an entry. -/
  | register (entry : Entry)

namespace Operation

/-- The name of the table that an operation opens: the table is there when it is done. -/
def opened? : Operation → Option String
  | ensure name => some name
  | register entry => some entry.table
  | _ => none

/-- The name that an operation gives to the root. -/
def rootName? : Operation → Option String
  | setRootName name => some name
  | _ => none

/-- The name that an operation mentions for good: that of a table that it opens, or that of the
root. A name that is only looked up is forgotten. -/
def interned? (operation : Operation) : Option String :=
  operation.opened?.or operation.rootName?

end Operation

/-- The catalog after an operation. Looking something up changes nothing. -/
def operate (traceAll : Bool) (catalog : Catalog) : Operation → Catalog
  | .ensure name => (catalog.ensure name).1
  | .find _ => catalog
  | .root => catalog
  | .setRootName name => catalog.setRootName name
  | .setTraced isTraced => catalog.setTraced isTraced
  | .register entry => (catalog.register traceAll entry).1

/-- The catalog after operations, in order. -/
def operateAll (traceAll : Bool) (catalog : Catalog) (operations : List Operation) : Catalog :=
  operations.foldl (operate traceAll) catalog

theorem operate_all_append (traceAll : Bool) (catalog : Catalog) (first second : List Operation) :
    catalog.operateAll traceAll (first ++ second) =
      (catalog.operateAll traceAll first).operateAll traceAll second :=
  List.foldl_append

/-- The catalog is an ordered map from names to tables. -/
structure Ordered (catalog : Catalog) : Prop where
  /-- No name has two tables. -/
  names : (catalog.tables.map Table.name).Nodup
  /-- No symbol has two tables. -/
  symbols : (catalog.tables.map Table.symbol).Nodup
  /-- The symbol of a table stands for its name. -/
  lookup : ∀ table ∈ catalog.tables,
    table.symbol.id ≠ 0 ∧ catalog.names.lookup? table.symbol = some table.name
  /-- A text is found under a symbol exactly if the symbol stands for it. -/
  interned : ∀ text symbol,
    catalog.names.find? text = some symbol ↔ catalog.names.lookup? symbol = some text
  /-- The index has the place of the table that has a symbol. -/
  index : ∀ symbol id, catalog.index? symbol = some id ↔
    id < catalog.size ∧ (catalog.tables[id]?).map Table.symbol = some symbol
  /-- The number of a name is the place of the table that has it. -/
  find : ∀ name id, catalog.find? name = some id ↔
    id < catalog.size ∧ (catalog.tables[id]?).map Table.name = some name
  /-- Ensuring a name that has a table changes nothing, and otherwise adds an empty table at the
  end. -/
  ensure : ∀ name, match catalog.find? name with
    | some id => catalog.ensure name = (catalog, id)
    | none => (catalog.ensure name).2 = catalog.size ∧
        ∃ table, (catalog.ensure name).1.tables = catalog.tables ++ [table] ∧
          table.name = name ∧ table.constructors = [] ∧ table.exported = .none
  /-- A name that was ensured is found under its number. -/
  found : ∀ name, (catalog.ensure name).1.find? name = some (catalog.ensure name).2

variable {catalog : Catalog}

/-- Where no value is there twice, a value is found at the place that has it. -/
theorem find_idx_eq_some_iff {α : Type} [DecidableEq α] (value : Table → α) {tables : List Table}
    (h : (tables.map value).Nodup) {wanted : α} {id : Nat} :
    (tables.findIdx? fun table => value table = wanted) = some id ↔
      id < tables.length ∧ (tables[id]?).map value = some wanted := by
  rw [List.findIdx?_eq_some_iff_getElem]
  constructor
  · intro hfound
    obtain ⟨hlt, hvalue, -⟩ := hfound
    refine ⟨hlt, ?_⟩
    rw [List.getElem?_eq_getElem hlt, Option.map_some, of_decide_eq_true hvalue]
  · intro hplaced
    obtain ⟨hlt, hvalue⟩ := hplaced
    rw [List.getElem?_eq_getElem hlt, Option.map_some, Option.some.injEq] at hvalue
    refine ⟨hlt, decide_eq_true hvalue, ?_⟩
    intro earlier hearlier hsame
    -- two places with one value would be the same place
    have hne := List.pairwise_iff_getElem.1 (List.pairwise_map.1 h)
      earlier id (Nat.lt_trans hearlier hlt) hlt hearlier
    exact hne ((of_decide_eq_true hsame).trans hvalue.symm)

namespace Indexed

theorem lookup_of_mem (h : catalog.Indexed) {table : Table} (hmem : table ∈ catalog.tables) :
    catalog.names.lookup? table.symbol = some table.name :=
  Interner.find_eq_some_iff.1 (h.symbol_of_mem hmem)

/-- Tables with one symbol would have one name. -/
theorem symbols_nodup (h : catalog.Indexed) : (catalog.tables.map Table.symbol).Nodup := by
  have hnames := h.names_nodup
  rw [List.Nodup, List.pairwise_map] at hnames ⊢
  refine hnames.imp_of_mem ?_
  intro table other htable hother hne hsame
  have hboth := h.lookup_of_mem htable
  rw [hsame, h.lookup_of_mem hother, Option.some.injEq] at hboth
  exact hne hboth.symm

/-- The number of a name is the place of the table that has it. -/
theorem find_eq_some_iff (h : catalog.Indexed) {name : String} {id : Nat} :
    catalog.find? name = some id ↔
      id < catalog.size ∧ (catalog.tables[id]?).map Table.name = some name := by
  rw [h.find_eq_find_idx]
  exact find_idx_eq_some_iff Table.name h.names_nodup

/-- An indexed catalog is an ordered map. -/
theorem ordered (h : catalog.Indexed) : catalog.Ordered := by
  refine ⟨h.names_nodup, h.symbols_nodup, ?_, fun _ _ => Interner.find_eq_some_iff, ?_,
    fun name id => h.find_eq_some_iff, ?_, ?_⟩
  · intro table hmem
    have hlookup := h.lookup_of_mem hmem
    refine ⟨?_, hlookup⟩
    intro hzero
    have hnone : catalog.names.lookup? table.symbol = none := by
      rw [Interner.lookup?, Symbol.text?, hzero]
    rw [hlookup] at hnone
    cases hnone
  · intro symbol id
    rw [h.index, keys, List.findIdx?_map]
    exact find_idx_eq_some_iff Table.symbol h.symbols_nodup
  · intro name
    cases hfind : catalog.find? name with
    | some id => exact ensure_of_find hfind
    | none =>
        simp only [h.ensure_of_new hfind]
        exact ⟨trivial, catalog.newTable name, rfl, rfl, rfl, rfl⟩
  · intro name
    have hget := get_ensure h name
    obtain ⟨hlt, -⟩ := List.getElem?_eq_some_iff.1 hget
    rw [(indexed_ensure h name).find_eq_some_iff, hget, Option.map_some, h.name_table_for]
    exact ⟨hlt, rfl⟩

end Indexed

theorem indexed_operate (h : catalog.Indexed) (traceAll : Bool) (operation : Operation) :
    (catalog.operate traceAll operation).Indexed := by
  cases operation with
  | ensure name => exact indexed_ensure h name
  | find | root => exact h
  | setRootName name => exact indexed_set_root_name h name
  | setTraced isTraced => exact indexed_set_traced h isTraced
  | register entry => exact indexed_register h traceAll entry

theorem indexed_operate_all (h : catalog.Indexed) (traceAll : Bool) (operations : List Operation) :
    (catalog.operateAll traceAll operations).Indexed := by
  induction operations generalizing catalog with
  | nil => exact h
  | cons operation operations ih => exact ih (indexed_operate h traceAll operation)

/-- Ensuring a name adds it to the names of tables, if it is new there. -/
theorem table_names_ensure (h : catalog.Indexed) (name : String) :
    (catalog.ensure name).1.tables.map Table.name =
      addNew (catalog.tables.map Table.name) name := by
  have hmem : name ∈ catalog.tables.map Table.name ↔ (catalog.find? name).isSome = true := by
    rw [h.find_eq_find_idx, List.findIdx?_isSome, List.any_eq_true, List.mem_map]
    simp
  rw [addNew]
  cases hfind : catalog.find? name with
  | some id => rw [ensure_of_find hfind, if_pos (hmem.2 (by rw [hfind]; rfl))]
  | none =>
      rw [h.ensure_of_new hfind, if_neg fun hin => by simpa [hfind] using hmem.1 hin]
      exact List.map_append

/-- Ensuring a name interns it. -/
theorem names_ensure (catalog : Catalog) (name : String) :
    (catalog.ensure name).1.names = catalog.names.insert name := by
  simp only [ensure]
  cases catalog.index? (catalog.names.intern name).2 <;> rfl

/-- So does registering a constructor in its table. -/
theorem names_register (traceAll : Bool) (catalog : Catalog) (entry : Entry) :
    (catalog.register traceAll entry).1.names = catalog.names.insert entry.table :=
  names_ensure catalog entry.table

/-- A list of names that takes in what each operation names takes in, one after another, what all
operations name. -/
theorem foldl_operate (view : Catalog → List String) (name? : Operation → Option String)
    {traceAll : Bool}
    (hstep : ∀ {catalog : Catalog}, catalog.Indexed → ∀ operation,
      view (catalog.operate traceAll operation) =
        (name? operation).toList.foldl addNew (view catalog))
    (h : catalog.Indexed) (operations : List Operation) :
    view (catalog.operateAll traceAll operations) =
      (operations.filterMap name?).foldl addNew (view catalog) := by
  induction operations generalizing catalog with
  | nil => rfl
  | cons operation operations ih =>
      have hrest := ih (indexed_operate h traceAll operation)
      rw [hstep h] at hrest
      rw [operateAll, List.foldl_cons, ← operateAll, hrest, List.filterMap_cons]
      cases name? operation <;> rfl

/-- Only operations that open a table can add to the tables. -/
theorem table_names_operate (h : catalog.Indexed) (traceAll : Bool) (operation : Operation) :
    (catalog.operate traceAll operation).tables.map Table.name =
      operation.opened?.toList.foldl addNew (catalog.tables.map Table.name) := by
  cases operation with
  | ensure name => exact table_names_ensure h name
  | register entry =>
      have hkeys := congrArg (List.map Prod.fst) (keys_register h traceAll entry)
      rw [keys, keys, List.map_map, List.map_map] at hkeys
      exact hkeys.trans (table_names_ensure h entry.table)
  | find | root => rfl
  | setRootName | setTraced => exact List.map_map

/-- Only operations that open a table or rename the root can add to the interned texts. -/
theorem texts_operate (catalog : Catalog) (traceAll : Bool) (operation : Operation) :
    (catalog.operate traceAll operation).names.texts =
      operation.interned?.toList.foldl addNew catalog.names.texts := by
  cases operation with
  | ensure name =>
      rw [operate, names_ensure]
      exact Interner.texts_insert catalog.names name
  | register entry =>
      rw [operate, names_register]
      exact Interner.texts_insert catalog.names entry.table
  | setRootName name => exact Interner.texts_insert catalog.names name
  | find | root | setTraced => rfl

/-- A setting of a catalog that operations can only replace has the value that it was given last. -/
theorem setting_operate_all {α : Type} (setting : Catalog → α) (value? : Operation → Option α)
    {traceAll : Bool}
    (hstep : ∀ (catalog : Catalog) (operation : Operation),
      setting (catalog.operate traceAll operation) = (value? operation).getD (setting catalog))
    (catalog : Catalog) (operations : List Operation) :
    setting (catalog.operateAll traceAll operations) =
      (operations.filterMap value?).getLast?.getD (setting catalog) := by
  induction operations generalizing catalog with
  | nil => rfl
  | cons operation operations ih =>
      rw [operateAll, List.foldl_cons, ← operateAll, ih, hstep, List.filterMap_cons]
      cases value? operation with
      | none => rfl
      | some value => rw [Option.getD_some, List.getLast?_cons, Option.getD_some]

/-- The root has the name that it was given last. -/
theorem root_name_operate_all (traceAll : Bool) (catalog : Catalog) (operations : List Operation) :
    (catalog.operateAll traceAll operations).rootName =
      (operations.filterMap Operation.rootName?).getLast?.getD catalog.rootName := by
  apply setting_operate_all
  intro catalog operation
  cases operation with
  | ensure name => exact root_name_ensure catalog name
  | register entry => exact root_name_register traceAll catalog entry
  | find | root | setRootName | setTraced => rfl

/-- What holds of all tables, and of the empty one that would be created, holds of the table for a
name. -/
theorem forall_table_for {holds : Table → Prop} (hall : ∀ table ∈ catalog.tables, holds table)
    (hnew : ∀ name, holds (catalog.newTable name)) (name : String) :
    holds (catalog.tableFor name) := by
  rw [tableFor]
  cases htable : catalog.table? name with
  | none => exact hnew name
  | some table =>
      rw [table?, Option.bind_eq_some_iff] at htable
      obtain ⟨id, -, hget⟩ := htable
      exact hall table (List.mem_of_getElem? hget)

/-- It holds of all tables when a name was ensured. -/
theorem forall_ensure {holds : Table → Prop} (hall : ∀ table ∈ catalog.tables, holds table)
    (hnew : ∀ name, holds (catalog.newTable name)) (name : String) :
    ∀ table ∈ (catalog.ensure name).1.tables, holds table := by
  simp only [ensure]
  cases catalog.index? (catalog.names.intern name).2 with
  | some id => exact hall
  | none =>
      intro table hmem
      rcases List.mem_append.1 hmem with hmem | hmem
      · exact hall table hmem
      · rw [List.mem_singleton.1 hmem]
        exact hnew name

/-- And it holds of all tables after a registration, if attempts on a table keep it. -/
theorem forall_register {holds : Table → Prop} (hall : ∀ table ∈ catalog.tables, holds table)
    (hnew : ∀ name, holds (catalog.newTable name))
    (hafter : ∀ table, holds table → ∀ request, holds (table.after request)) (traceAll : Bool)
    (entry : Entry) : ∀ table ∈ (catalog.register traceAll entry).1.tables, holds table := by
  intro table hmem
  rw [tables_register] at hmem
  rcases List.mem_or_eq_of_mem_set hmem with hmem | rfl
  · exact forall_ensure hall hnew entry.table table hmem
  · exact hafter _ (forall_table_for hall hnew entry.table) entry.request

/-- `Lasting holds` says that new tables have a property and that operations keep it. The property
`holds rootName` is one of the tables of a catalog whose root is called `rootName`. -/
structure Lasting (holds : String → Table → Prop) : Prop where
  created : ∀ (catalog : Catalog) (name : String), holds catalog.rootName (catalog.newTable name)
  renamed : ∀ {rootName : String} {table : Table}, holds rootName table →
    ∀ other, holds other { table with rootName := other }
  traced : ∀ {rootName : String} {table : Table}, holds rootName table →
    ∀ isTraced, holds rootName { table with isTraced }
  after : ∀ {rootName : String} {table : Table}, holds rootName table →
    ∀ request, holds rootName (table.after request)

/-- All tables of a catalog have a property. -/
def Throughout (holds : String → Table → Prop) (catalog : Catalog) : Prop :=
  ∀ table ∈ catalog.tables, holds catalog.rootName table

namespace Lasting

variable {holds : String → Table → Prop}

theorem ensure (h : Lasting holds) (hall : catalog.Throughout holds) (name : String) :
    (catalog.ensure name).1.Throughout holds := by
  rw [Throughout, root_name_ensure]
  exact forall_ensure hall (h.created catalog) name

theorem register (h : Lasting holds) (hall : catalog.Throughout holds) (traceAll : Bool)
    (entry : Entry) : (catalog.register traceAll entry).1.Throughout holds := by
  rw [Throughout, root_name_register]
  exact forall_register hall (h.created catalog) (fun _ => h.after) traceAll entry

theorem operate (h : Lasting holds) (hall : catalog.Throughout holds) (traceAll : Bool)
    (operation : Operation) : (catalog.operate traceAll operation).Throughout holds := by
  cases operation with
  | ensure name => exact h.ensure hall name
  | find | root => exact hall
  | setRootName name =>
      intro table hmem
      obtain ⟨before, hbefore, rfl⟩ := List.mem_map.1 hmem
      exact h.renamed (hall before hbefore) name
  | setTraced isTraced =>
      intro table hmem
      obtain ⟨before, hbefore, rfl⟩ := List.mem_map.1 hmem
      exact h.traced (hall before hbefore) isTraced
  | register entry => exact h.register hall traceAll entry

/-- Whatever is done with a catalog that begins without tables, its tables have every lasting
property. -/
theorem operate_all (h : Lasting holds) (rootName : String) (traceAll : Bool)
    (operations : List Operation) :
    ((empty rootName).operateAll traceAll operations).Throughout holds := by
  have hrun : ∀ {catalog : Catalog}, catalog.Throughout holds →
      (catalog.operateAll traceAll operations).Throughout holds := by
    induction operations with
    | nil => exact id
    | cons operation operations ih => exact fun hall => ih (h.operate hall traceAll operation)
  exact hrun fun table hmem => absurd hmem List.not_mem_nil

end Lasting

/-- What operations make of a catalog that begins without tables is an ordered map from names to
tables. Its names, in order, are those that operations open, and it knows no texts but these and the
names given to the root. -/
theorem operate_all_ordered (rootName : String) (traceAll : Bool) (operations : List Operation) :
    let catalog := (empty rootName).operateAll traceAll operations
    catalog.Ordered ∧
      catalog.tables.map Table.name = firstUses (operations.filterMap Operation.opened?) ∧
      catalog.names.texts = firstUses (rootName :: operations.filterMap Operation.interned?) ∧
      catalog.rootName =
        (operations.filterMap Operation.rootName?).getLast?.getD rootName := by
  intro catalog
  have hempty := indexed_empty rootName
  refine ⟨(indexed_operate_all hempty traceAll operations).ordered, ?_, ?_,
    root_name_operate_all traceAll (empty rootName) operations⟩
  · exact foldl_operate (fun catalog => catalog.tables.map Table.name) Operation.opened?
      (fun h => table_names_operate h traceAll) hempty operations
  · exact foldl_operate (fun catalog => catalog.names.texts) Operation.interned?
      (fun {catalog} _ => texts_operate catalog traceAll) hempty operations

end DecodeTables.Catalog
