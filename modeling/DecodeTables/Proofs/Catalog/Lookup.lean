import DecodeTables.Catalog
import DecodeTables.Proofs.Interner.Lookup
import DecodeTables.Proofs.Table.Register

/-!
# Finding tables by name

A catalog is `Indexed` if its tables have different names, each has the symbol of its name, and the
index has the place of each symbol. Then the way through symbols finds the one table that has a
name, `table_eq_find`. Every change of a catalog keeps it indexed, and `table_ensure`,
`table_set_root_name`, `table_set_traced` and `table_register` say which table has a name
afterwards.
-/

namespace DecodeTables.Catalog

/-- The names of the tables with their symbols. -/
def keys (catalog : Catalog) : List (String × Symbol) :=
  catalog.tables.map fun table => (table.name, table.symbol)

/-- Tables have different names, each has the symbol of its name, and the index has the place of
each symbol. -/
structure Indexed (catalog : Catalog) : Prop where
  symbol : ∀ key ∈ catalog.keys, catalog.names.find? key.1 = some key.2
  nodup : (catalog.keys.map Prod.fst).Nodup
  index : ∀ symbol, catalog.index? symbol = catalog.keys.findIdx? fun key => key.2 = symbol

/-- The first table called `name`. -/
def called? (tables : List Table) (name : String) : Option Table :=
  tables.find? fun table => table.name = name

theorem called_cons (table : Table) (tables : List Table) (name : String) :
    called? (table :: tables) name =
      if table.name = name then some table else called? tables name := by
  rw [called?, List.find?_cons]
  by_cases hname : table.name = name <;> simp [hname, called?]

/-- Among tables with different names, a table is called by its name and by nothing else. -/
theorem called_eq_some_iff {tables : List Table} (hnodup : (tables.map (·.name)).Nodup)
    {name : String} {table : Table} :
    called? tables name = some table ↔ table ∈ tables ∧ table.name = name := by
  induction tables with
  | nil => simp [called?]
  | cons first tables ih =>
      rw [List.map_cons, List.nodup_cons] at hnodup
      rw [called_cons, List.mem_cons]
      by_cases hname : first.name = name
      · rw [if_pos hname, Option.some.injEq]
        constructor
        · rintro rfl
          exact ⟨Or.inl rfl, hname⟩
        · rintro ⟨rfl | hmem, htable⟩
          · rfl
          · exact absurd (List.mem_map.2 ⟨table, hmem, htable.trans hname.symm⟩) hnodup.1
      · rw [if_neg hname, ih hnodup.2]
        constructor
        · intro h
          exact ⟨Or.inr h.1, h.2⟩
        · rintro ⟨rfl | hmem, htable⟩
          · exact absurd htable hname
          · exact ⟨hmem, htable⟩

/-- Replacing a table by one of the same name changes what is called by that name only. -/
theorem called_set {tables : List Table} (hnodup : (tables.map (·.name)).Nodup) {id : Nat}
    {table other : Table} (hget : tables[id]? = some table) (hname : other.name = table.name)
    (name : String) :
    called? (tables.set id other) name =
      if name = table.name then some other else called? tables name := by
  induction tables generalizing id with
  | nil => cases hget
  | cons first tables ih =>
      rw [List.map_cons, List.nodup_cons] at hnodup
      cases id with
      | zero =>
          obtain rfl : first = table := Option.some.inj hget
          rw [List.set_cons_zero, called_cons, called_cons, hname]
          by_cases hsame : name = first.name
          · rw [if_pos hsame.symm, if_pos hsame]
          · rw [if_neg (Ne.symm hsame), if_neg hsame, if_neg (Ne.symm hsame)]
      | succ id =>
          rw [List.getElem?_cons_succ] at hget
          have hmem : table.name ∈ tables.map (·.name) :=
            List.mem_map.2 ⟨table, List.mem_of_getElem? hget, rfl⟩
          rw [List.set_cons_succ, called_cons, called_cons, ih hnodup.2 hget]
          by_cases hfirst : first.name = name
          · have hne : name ≠ table.name := fun hsame =>
              hnodup.1 (hfirst.trans hsame ▸ hmem)
            rw [if_pos hfirst, if_neg hne, if_pos hfirst]
          · rw [if_neg hfirst, if_neg hfirst]

variable {catalog : Catalog}

/-- Among keys whose symbols are those of their names, a symbol has the place of the name. -/
theorem find_idx_symbol {names : Interner} {keys : List (String × Symbol)} {name : String}
    {symbol : Symbol} (hkeys : ∀ key ∈ keys, names.find? key.1 = some key.2)
    (hname : names.find? name = some symbol) :
    (keys.findIdx? fun key => key.2 = symbol) = keys.findIdx? fun key => key.1 = name := by
  induction keys with
  | nil => rfl
  | cons key keys ih =>
      rw [List.forall_mem_cons] at hkeys
      have hsame : key.2 = symbol ↔ key.1 = name := by
        constructor
        · rintro rfl
          exact Interner.find_injective hkeys.1 hname
        · rintro rfl
          exact Option.some.inj (hkeys.1.symm.trans hname)
      simp only [List.findIdx?_cons, hsame, ih hkeys.2]

namespace Indexed

theorem symbol_of_mem (h : catalog.Indexed) {table : Table} (hmem : table ∈ catalog.tables) :
    catalog.names.find? table.name = some table.symbol :=
  h.symbol (table.name, table.symbol) (List.mem_map.2 ⟨table, hmem, rfl⟩)

theorem names_nodup (h : catalog.Indexed) : (catalog.tables.map (·.name)).Nodup := by
  have hnodup := h.nodup
  rwa [keys, List.map_map] at hnodup

/-- The number of a table is the place of its name among the names of tables. -/
theorem find_eq_find_idx (h : catalog.Indexed) (name : String) :
    catalog.find? name = catalog.tables.findIdx? fun table => table.name = name := by
  cases hname : catalog.names.find? name with
  | some symbol =>
      rw [find?, hname, Option.bind_some, h.index, find_idx_symbol h.symbol hname, keys,
        List.findIdx?_map]
      rfl
  | none =>
      rw [find?, hname, Option.bind_none, eq_comm, List.findIdx?_eq_none_iff]
      intro table hmem
      rw [decide_eq_false_iff_not]
      rintro rfl
      rw [h.symbol_of_mem hmem] at hname
      cases hname

/-- The table called `name` is the first one with that name. -/
theorem table_eq_find (h : catalog.Indexed) (name : String) :
    catalog.table? name = called? catalog.tables name := by
  rw [table?, h.find_eq_find_idx, called?, List.find?_eq_bind_findIdx?_getElem?]

/-- A name has a number exactly if it has a table. -/
theorem find_is_some (h : catalog.Indexed) (name : String) :
    (catalog.find? name).isSome = (catalog.table? name).isSome := by
  rw [h.find_eq_find_idx, h.table_eq_find, called?, List.findIdx?_isSome, Bool.eq_iff_iff,
    List.any_eq_true, List.find?_isSome]

/-- A table is found under its name and under nothing else. -/
theorem table_eq_some_iff (h : catalog.Indexed) {name : String} {table : Table} :
    catalog.table? name = some table ↔ table ∈ catalog.tables ∧ table.name = name := by
  rw [h.table_eq_find]
  exact called_eq_some_iff h.names_nodup

/-- The table for a name has that name. -/
theorem name_table_for (h : catalog.Indexed) (name : String) :
    (catalog.tableFor name).name = name := by
  rw [tableFor]
  cases htable : catalog.table? name with
  | none => rfl
  | some table => exact (h.table_eq_some_iff.1 htable).2

end Indexed

/-- Without tables there is nothing to be found. -/
theorem indexed_empty (rootName : String) : (empty rootName).Indexed :=
  ⟨fun _ hmem => absurd hmem (List.not_mem_nil), List.nodup_nil, fun _ => rfl⟩

/-- A catalog stays indexed if its keys and its index stay and nothing is forgotten that was
interned. -/
theorem Indexed.of_keys (h : catalog.Indexed) {other : Catalog} (hkeys : other.keys = catalog.keys)
    (hindex : other.index = catalog.index)
    (hnames : ∀ {name symbol}, catalog.names.find? name = some symbol →
      other.names.find? name = some symbol) : other.Indexed where
  symbol key hmem := hnames (h.symbol key (hkeys ▸ hmem))
  nodup := hkeys ▸ h.nodup
  index symbol := by
    rw [hkeys, ← h.index, index?, hindex, index?]

theorem indexed_set_root_name (h : catalog.Indexed) (rootName : String) :
    (catalog.setRootName rootName).Indexed := by
  apply h.of_keys
  · simp [keys, setRootName]
  · rfl
  · intro name symbol hname
    exact Interner.find_insert hname rootName

theorem indexed_set_traced (h : catalog.Indexed) (isTraced : Bool) :
    (catalog.setTraced isTraced).Indexed := by
  apply h.of_keys
  · simp [keys, setTraced]
  · rfl
  · exact id

/-- Ensuring a name that has a table changes nothing. -/
theorem ensure_of_find {name : String} {id : Nat} (h : catalog.find? name = some id) :
    catalog.ensure name = (catalog, id) := by
  rw [find?, Option.bind_eq_some_iff] at h
  obtain ⟨symbol, hsymbol, hid⟩ := h
  simp only [ensure, Interner.intern_of_find hsymbol, hid]

/-- The symbol of a name that has no table is not in the index. -/
theorem Indexed.index_of_new (h : catalog.Indexed) {name : String}
    (hnew : catalog.find? name = none) : catalog.index? (catalog.names.intern name).2 = none := by
  cases hsymbol : catalog.names.find? name with
  | some symbol =>
      rw [Interner.intern_of_find hsymbol, ← hnew, find?, hsymbol, Option.bind_some]
  | none =>
      rw [h.index, List.findIdx?_eq_none_iff]
      intro key hmem
      rw [decide_eq_false_iff_not]
      intro hsame
      -- otherwise the name would be that of a table, and have been interned
      have hkey := Interner.find_insert (h.symbol key hmem) name
      rw [hsame] at hkey
      have hname := Interner.find_injective hkey (Interner.find_insert_self _ name)
      rw [← hname, h.symbol key hmem] at hsymbol
      cases hsymbol

/-- Ensuring a name that has no table creates one. -/
theorem Indexed.ensure_of_new (h : catalog.Indexed) {name : String}
    (hnew : catalog.find? name = none) :
    catalog.ensure name = (catalog.create name, catalog.size) := by
  simp only [ensure, h.index_of_new hnew]

/-- The index has the next number for a new table. -/
theorem index_create (catalog : Catalog) (name : String) :
    (catalog.create name).index =
      catalog.index ++ [((catalog.names.intern name).2, catalog.size)] :=
  rfl

/-- A new table has the last key. -/
theorem keys_create (catalog : Catalog) (name : String) :
    (catalog.create name).keys = catalog.keys ++ [(name, (catalog.names.intern name).2)] :=
  List.map_append

/-- Creating a table for a name that has none keeps the names of tables different. -/
theorem indexed_create (h : catalog.Indexed) {name : String} (hnew : catalog.find? name = none) :
    (catalog.create name).Indexed := by
  constructor
  · intro key hmem
    rw [keys_create, List.mem_append, List.mem_singleton] at hmem
    rcases hmem with hmem | rfl
    · exact Interner.find_insert (h.symbol key hmem) name
    · exact Interner.find_insert_self catalog.names name
  · rw [keys_create, List.map_append, List.nodup_append]
    refine ⟨h.nodup, by simp, ?_⟩
    intro first hfirst second hsecond
    rw [h.find_eq_find_idx, List.findIdx?_eq_none_iff] at hnew
    simp only [keys, List.map_map, List.mem_map] at hfirst
    obtain ⟨table, hmem, rfl⟩ := hfirst
    rw [List.mem_singleton.1 hsecond]
    exact of_decide_eq_false (hnew table hmem)
  · intro symbol
    rw [keys_create, List.findIdx?_append, ← h.index, index?, index_create, List.lookup_append,
      ← index?]
    by_cases hsame : symbol = (catalog.names.intern name).2
    · rw [hsame, h.index_of_new hnew]
      simp [keys, size]
    · simp [List.lookup_cons, beq_false_of_ne hsame, Ne.symm hsame]

theorem indexed_ensure (h : catalog.Indexed) (name : String) :
    (catalog.ensure name).1.Indexed := by
  cases hfind : catalog.find? name with
  | some id =>
      rw [ensure_of_find hfind]
      exact h
  | none =>
      rw [h.ensure_of_new hfind]
      exact indexed_create h hfind

/-- A name that was ensured has a table, the one that the number tells. -/
theorem get_ensure (h : catalog.Indexed) (name : String) :
    (catalog.ensure name).1.tables[(catalog.ensure name).2]? = some (catalog.tableFor name) := by
  have hsome := h.find_is_some name
  rw [tableFor, table?] at *
  cases hfind : catalog.find? name with
  | some id =>
      rw [hfind, Option.isSome_some, Option.bind_some, eq_comm, Option.isSome_iff_exists] at hsome
      obtain ⟨table, htable⟩ := hsome
      simp [ensure_of_find hfind, htable]
  | none => simp [h.ensure_of_new hfind, create, size]

/-- Ensuring a name changes nothing but that the name has a table. -/
theorem table_ensure (h : catalog.Indexed) (name other : String) :
    (catalog.ensure name).1.table? other =
      if other = name then some (catalog.tableFor name) else catalog.table? other := by
  by_cases hsame : other = name
  · rw [if_pos hsame, hsame, (indexed_ensure h name).table_eq_some_iff]
    exact ⟨List.mem_of_getElem? (get_ensure h name), h.name_table_for name⟩
  · rw [if_neg hsame]
    cases hfind : catalog.find? name with
    | some id => rw [ensure_of_find hfind]
    | none =>
        rw [h.ensure_of_new hfind, (indexed_create h hfind).table_eq_find, h.table_eq_find, called?,
          create, List.find?_append, List.find?_cons_of_neg]
        · simp [called?]
        · exact fun hnew => hsame (of_decide_eq_true hnew).symm

/-- A new name for the root changes nothing about a table but which one is the root. -/
theorem table_set_root_name (h : catalog.Indexed) (rootName name : String) :
    (catalog.setRootName rootName).table? name =
      (catalog.table? name).map fun table => { table with rootName } := by
  rw [(indexed_set_root_name h rootName).table_eq_find, h.table_eq_find]
  exact List.find?_map

/-- Tracing changes nothing about a table but whether it is traced. -/
theorem table_set_traced (catalog : Catalog) (isTraced : Bool) (name : String) :
    (catalog.setTraced isTraced).table? name =
      (catalog.table? name).map fun table => { table with isTraced } := by
  have hfind : (catalog.setTraced isTraced).find? name = catalog.find? name := rfl
  rw [table?, hfind, table?, setTraced]
  cases catalog.find? name with
  | none => rfl
  | some id => exact List.getElem?_map

/-- Ensuring a name does not rename the root. -/
theorem root_name_ensure (catalog : Catalog) (name : String) :
    (catalog.ensure name).1.rootName = catalog.rootName := by
  simp only [ensure]
  cases catalog.index? (catalog.names.intern name).2 <;> rfl

/-- Nor does a registration. -/
theorem root_name_register (traceAll : Bool) (catalog : Catalog) (entry : Entry) :
    (catalog.register traceAll entry).1.rootName = catalog.rootName :=
  root_name_ensure catalog entry.table

/-- What is asked of the table of an entry. -/
def Entry.request (entry : Entry) : Table.Request :=
  ⟨entry.constructor, entry.loc⟩

/-- A registration puts the table of the entry, as it is after the attempt, in its place. -/
theorem tables_register (traceAll : Bool) (catalog : Catalog) (entry : Entry) :
    (catalog.register traceAll entry).1.tables =
      (catalog.ensure entry.table).1.tables.set (catalog.ensure entry.table).2
        ((catalog.tableFor entry.table).after entry.request) :=
  congrArg _ (Table.attempt_table traceAll _ entry.request)

/-- A registration creates the table of the entry but adds no other key. -/
theorem keys_register (h : catalog.Indexed) (traceAll : Bool) (entry : Entry) :
    (catalog.register traceAll entry).1.keys = (catalog.ensure entry.table).1.keys := by
  obtain ⟨hlt, hat⟩ := List.getElem?_eq_some_iff.1 (get_ensure h entry.table)
  obtain ⟨hname, hsymbol⟩ := Table.key_after (catalog.tableFor entry.table) entry.request
  rw [keys, tables_register, List.map_set, hname, hsymbol, ← hat, keys]
  apply List.ext_getElem?
  intro index
  rw [List.getElem?_set]
  split
  · next hindex =>
      subst hindex
      simp [hlt]
  · rfl

theorem indexed_register (h : catalog.Indexed) (traceAll : Bool) (entry : Entry) :
    (catalog.register traceAll entry).1.Indexed :=
  (indexed_ensure h entry.table).of_keys (keys_register h traceAll entry) rfl id

/-- A registration changes the table of the entry and no other. -/
theorem table_register (h : catalog.Indexed) (traceAll : Bool) (entry : Entry) (name : String) :
    (catalog.register traceAll entry).1.table? name =
      if name = entry.table then some ((catalog.tableFor entry.table).after entry.request)
      else catalog.table? name := by
  have hget := get_ensure h entry.table
  have hname := h.name_table_for entry.table
  rw [(indexed_register h traceAll entry).table_eq_find, tables_register,
    called_set (indexed_ensure h entry.table).names_nodup hget (Table.key_after _ _).1, hname,
    ← (indexed_ensure h entry.table).table_eq_find, table_ensure h]
  by_cases hsame : name = entry.table
  · rw [if_pos hsame, if_pos hsame]
  · rw [if_neg hsame, if_neg hsame, if_neg hsame]

end DecodeTables.Catalog
