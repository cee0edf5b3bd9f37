import DecodeTables.Proofs.Catalog.Operations
import DecodeTables.Proofs.Table.Batch

/-!
# What one registration leaves alone

A registration opens the table of its entry, which may be new, and does nothing more if the entry is
rejected, `register_of_rejects`. Otherwise the table grows where it is. All other tables are the
same afterwards and in the same places, `get_register_ne`.
-/

namespace DecodeTables.Catalog

variable {catalog : Catalog}

/-- The table for a name that is found is the one with that number. -/
theorem Indexed.get_of_find (h : catalog.Indexed) {name : String} {id : Nat}
    (hfind : catalog.find? name = some id) :
    catalog.tables[id]? = some (catalog.tableFor name) := by
  have hget := get_ensure h name
  rwa [ensure_of_find hfind] at hget

/-- The table for a name that is not found is a new one. -/
theorem table_for_of_new {name : String} (hnew : catalog.find? name = none) :
    catalog.tableFor name = catalog.newTable name := by
  rw [tableFor, table?, hnew, Option.bind_none, Option.getD_none]

/-- A catalog without tables creates a table for each name. -/
theorem table_for_of_no_tables (h : catalog.Indexed) (hempty : catalog.tables = [])
    (name : String) : catalog.tableFor name = catalog.newTable name := by
  rw [tableFor, h.table_eq_find, hempty]
  rfl

/-- Opening a table gives the number that its name has, or else the next one. -/
theorem number_ensure (h : catalog.Indexed) (name : String) :
    (catalog.ensure name).2 = (catalog.find? name).getD catalog.size := by
  cases hfind : catalog.find? name with
  | some id => rw [ensure_of_find hfind, Option.getD_some]
  | none => rw [h.ensure_of_new hfind, Option.getD_none]

/-- Opening a table adds one to the tables if it is new. -/
theorem size_ensure (h : catalog.Indexed) (name : String) :
    (catalog.ensure name).1.size =
      if (catalog.find? name).isSome then catalog.size else catalog.size + 1 := by
  cases hfind : catalog.find? name with
  | some id => rw [ensure_of_find hfind, Option.isSome_some, if_pos rfl]
  | none =>
      rw [h.ensure_of_new hfind]
      exact List.length_append

/-- Opening a table changes no other one. -/
theorem get_ensure_ne (h : catalog.Indexed) {name : String} {other : Table}
    (hne : other.name ≠ name) (id : Nat) :
    (catalog.ensure name).1.tables[id]? = some other ↔ catalog.tables[id]? = some other := by
  cases hfind : catalog.find? name with
  | some known => rw [ensure_of_find hfind]
  | none =>
      rw [h.ensure_of_new hfind, create, List.getElem?_append]
      split
      · rfl
      · next hout =>
        -- beyond the old tables there is nothing but the new one
        rw [List.getElem?_eq_none (Nat.le_of_not_lt hout), List.getElem?_singleton]
        split
        · simp only [Option.some.injEq, reduceCtorEq, iff_false]
          rintro rfl
          exact hne rfl
        · rfl

/-- A registration opens the table of the entry and then puts the table as it is after the attempt
in its place. -/
theorem register_eq (traceAll : Bool) (catalog : Catalog) (entry : Entry) :
    (catalog.register traceAll entry).1 =
      { (catalog.ensure entry.table).1 with
        tables := (catalog.ensure entry.table).1.tables.set (catalog.ensure entry.table).2
          ((catalog.tableFor entry.table).after entry.request) } := by
  rw [← Table.attempt_table traceAll]
  rfl

/-- Where a registration finds which table. -/
theorem get_register (h : catalog.Indexed) (traceAll : Bool) (entry : Entry) (id : Nat) :
    (catalog.register traceAll entry).1.tables[id]? =
      if (catalog.ensure entry.table).2 = id then
        some ((catalog.tableFor entry.table).after entry.request)
      else (catalog.ensure entry.table).1.tables[id]? := by
  have hlt := (List.getElem?_eq_some_iff.1 (get_ensure h entry.table)).1
  rw [tables_register, List.getElem?_set]
  by_cases hid : (catalog.ensure entry.table).2 = id
  · rw [if_pos hid, if_pos hid, if_pos hlt]
  · rw [if_neg hid, if_neg hid]

/-- A registration changes no table but that of the entry. -/
theorem get_register_ne (h : catalog.Indexed) (traceAll : Bool) {entry : Entry} {other : Table}
    (hne : other.name ≠ entry.table) (id : Nat) :
    (catalog.register traceAll entry).1.tables[id]? = some other ↔
      catalog.tables[id]? = some other := by
  rw [get_register h, ← get_ensure_ne h hne]
  split
  · next hid =>
    -- the tables at the place of the entry have its name, before and after
    have hname := h.name_table_for entry.table
    rw [← hid, get_ensure h, Option.some.injEq, Option.some.injEq]
    refine iff_of_false ?_ ?_
    · rintro rfl
      exact hne ((Table.key_after _ _).1.trans hname)
    · rintro rfl
      exact hne hname
  · rfl

/-- The table of the entry has the number that it had, or else the next one. -/
theorem get_register_self (h : catalog.Indexed) (traceAll : Bool) (entry : Entry) :
    (catalog.register traceAll entry).1.tables[(catalog.find? entry.table).getD catalog.size]? =
      some ((catalog.tableFor entry.table).after entry.request) := by
  rw [← number_ensure h, get_register h, if_pos rfl]

/-- It is found under that number. -/
theorem find_register_self (h : catalog.Indexed) (traceAll : Bool) (entry : Entry) :
    (catalog.register traceAll entry).1.find? entry.table =
      some ((catalog.find? entry.table).getD catalog.size) := by
  have hget := get_register_self h traceAll entry
  rw [(indexed_register h traceAll entry).find_eq_some_iff, hget, Option.map_some,
    (Table.key_after _ _).1, h.name_table_for]
  exact ⟨(List.getElem?_eq_some_iff.1 hget).1, rfl⟩

/-- A registration adds one to the tables if that of the entry is new. -/
theorem size_register (h : catalog.Indexed) (traceAll : Bool) (entry : Entry) :
    (catalog.register traceAll entry).1.size =
      if (catalog.find? entry.table).isSome then catalog.size else catalog.size + 1 := by
  rw [← size_ensure h, size, tables_register, List.length_set, size]

/-- An entry that its table rejects leaves nothing behind but the table, if that is new. -/
theorem register_of_rejects (h : catalog.Indexed) (traceAll : Bool) {entry : Entry}
    (hrejects : (catalog.tableFor entry.table).accepts entry.request = false) :
    (catalog.register traceAll entry).1 = (catalog.ensure entry.table).1 := by
  obtain ⟨hlt, hget⟩ := List.getElem?_eq_some_iff.1 (get_ensure h entry.table)
  rw [register_eq, Table.after_of_rejects hrejects, ← hget, List.set_getElem_self]

end DecodeTables.Catalog
