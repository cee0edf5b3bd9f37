import DecodeTables.Proofs.Catalog.Frame
import DecodeTables.Proofs.Catalog.Operations
import DecodeTables.Proofs.Catalog.Registrations
import DecodeTables.Proofs.Elaboration.Finish
import DecodeTables.Proofs.Table.Batch
import DecodeTables.Proofs.Table.Growth

/-!
# Catalogs only grow

No operation removes a table or gives it another number: each table of a catalog grows into the one
that has its number afterwards, `grows_operate_all`. So a name that is defined stays defined, and
what was registered is in a table from then on, `holds_of_event`.
-/

namespace DecodeTables.Catalog

/-- `catalog.GrowsInto later` says that each table of a catalog has grown into the table that has
its number later. -/
def GrowsInto (catalog later : Catalog) : Prop :=
  ∀ (id : Nat) (table : Table), catalog.tables[id]? = some table →
    ∃ grown, later.tables[id]? = some grown ∧ table.GrowsInto grown

/-- A constructor is in one of the tables. -/
def Holds (catalog : Catalog) (constructor : Constructor) : Prop :=
  ∃ table ∈ catalog.tables, constructor ∈ table.constructors

variable {catalog : Catalog}

namespace GrowsInto

theorem refl (catalog : Catalog) : catalog.GrowsInto catalog :=
  fun _ table hget => ⟨table, hget, .refl table⟩

theorem trans {middle later : Catalog} (h : catalog.GrowsInto middle)
    (h' : middle.GrowsInto later) : catalog.GrowsInto later := by
  intro id table hget
  obtain ⟨next, hnext, hgrows⟩ := h id table hget
  obtain ⟨grown, hgrown, hgrows'⟩ := h' id next hnext
  exact ⟨grown, hgrown, hgrows.trans hgrows'⟩

/-- A change of all tables lets the catalog grow if it lets each table grow. -/
theorem of_map {later : Catalog} (change : Table → Table)
    (hchange : ∀ table : Table, table.GrowsInto (change table))
    (htables : later.tables = catalog.tables.map change) : catalog.GrowsInto later := by
  intro id table hget
  refine ⟨change table, ?_, hchange table⟩
  rw [htables, List.getElem?_map, hget, Option.map_some]

/-- What is in a table stays there. -/
theorem holds {later : Catalog} (h : catalog.GrowsInto later) {constructor : Constructor}
    (hholds : catalog.Holds constructor) : later.Holds constructor := by
  obtain ⟨table, hmem, hconstructor⟩ := hholds
  obtain ⟨id, hget⟩ := List.mem_iff_getElem?.1 hmem
  obtain ⟨grown, hgrown, hgrows⟩ := h id table hget
  exact ⟨grown, List.mem_of_getElem? hgrown, hgrows.constructors.subset hconstructor⟩

/-- A name that is found stays where it is. -/
theorem find {later : Catalog} (h : catalog.GrowsInto later) (hindexed : catalog.Indexed)
    (hlater : later.Indexed) {name : String} {id : Nat} (hfind : catalog.find? name = some id) :
    later.find? name = some id := by
  obtain ⟨-, hname⟩ := hindexed.find_eq_some_iff.1 hfind
  obtain ⟨table, hget, rfl⟩ := Option.map_eq_some_iff.1 hname
  obtain ⟨grown, hgrown, hgrows⟩ := h id table hget
  rw [hlater.find_eq_some_iff, hgrown, Option.map_some, hgrows.name]
  exact ⟨(List.getElem?_eq_some_iff.1 hgrown).1, rfl⟩

/-- A name that is defined stays defined. -/
theorem is_defined {later : Catalog} (h : catalog.GrowsInto later) (hindexed : catalog.Indexed)
    (hlater : later.Indexed) {name : String} (hdefined : catalog.isDefined name = true) :
    later.isDefined name = true := by
  rw [hlater.is_defined_iff]
  rw [hindexed.is_defined_iff] at hdefined
  intro hlacks
  refine hdefined fun table hmem hname => ?_
  obtain ⟨id, hget⟩ := List.mem_iff_getElem?.1 hmem
  obtain ⟨grown, hgrown, hgrows⟩ := h id table hget
  -- the table cannot have had constructors, as it has none later
  have hempty := hlacks grown (List.mem_of_getElem? hgrown) (hgrows.name.trans hname)
  exact Classical.byContradiction fun hne => hgrows.nonempty hne hempty

end GrowsInto

theorem grows_ensure (catalog : Catalog) (name : String) :
    catalog.GrowsInto (catalog.ensure name).1 := by
  simp only [ensure]
  cases catalog.index? (catalog.names.intern name).2 with
  | some id => exact .refl _
  | none =>
      intro id table hget
      obtain ⟨hlt, -⟩ := List.getElem?_eq_some_iff.1 hget
      exact ⟨table, (List.getElem?_append_left hlt).trans hget, .refl table⟩

/-- A registration puts the table of its entry, grown or not, in the place of what it was. -/
theorem grows_register (h : catalog.Indexed) (traceAll : Bool) (entry : Entry) :
    catalog.GrowsInto (catalog.register traceAll entry).1 := by
  refine (grows_ensure catalog entry.table).trans ?_
  intro id table hget
  rw [get_register h]
  split
  · next hid =>
    rw [← hid, get_ensure h, Option.some.injEq] at hget
    exact ⟨_, rfl, hget ▸ Table.grows_after _ _⟩
  · exact ⟨table, hget, .refl table⟩

theorem grows_register_all (h : catalog.Indexed) (traceAll : Bool) (entries : List Entry) :
    catalog.GrowsInto (catalog.registerAll traceAll entries).1 := by
  induction entries generalizing catalog with
  | nil => exact .refl catalog
  | cons entry entries ih =>
      exact (grows_register h traceAll entry).trans (ih (indexed_register h traceAll entry))

/-- What was registered among entries is in a table when all of them are attempted. -/
theorem holds_of_event (h : catalog.Indexed) {traceAll : Bool} {entries : List Entry}
    {entry : Entry} (hmem : (entry, .ok ()) ∈ catalog.events traceAll entries) :
    ∃ constructor, entry.request.constructor? = some constructor ∧
      (catalog.registerAll traceAll entries).1.Holds constructor := by
  induction entries generalizing catalog with
  | nil => cases hmem
  | cons first entries ih =>
      have hnext := indexed_register h traceAll first
      rw [events_cons, List.mem_cons] at hmem
      rcases hmem with hmem | hmem
      · obtain ⟨rfl, houtcome⟩ := Prod.mk.inj hmem
        have haccepts : (catalog.tableFor entry.table).accepts entry.request = true :=
          (Table.attempt_is_ok traceAll _ entry.request).symm.trans
            (congrArg Except.isOk houtcome.symm)
        obtain ⟨constructor, hconstructor, -, hafter⟩ := Table.after_of_accepts haccepts
        have htable := table_register h traceAll entry entry.table
        rw [if_pos rfl, hafter] at htable
        refine ⟨constructor, hconstructor, ?_⟩
        -- the table has the constructor at once, and only grows by the other entries
        exact (grows_register_all hnext traceAll entries).holds
          ⟨_, (hnext.table_eq_some_iff.1 htable).1, by simp [Table.grow]⟩
      · exact ih hnext hmem

theorem grows_operate (h : catalog.Indexed) (traceAll : Bool) (operation : Operation) :
    catalog.GrowsInto (catalog.operate traceAll operation) := by
  cases operation with
  | ensure name => exact grows_ensure catalog name
  | find | root => exact .refl catalog
  | setRootName rootName =>
      exact .of_map (fun table => { table with rootName })
        (fun _ => ⟨rfl, rfl, List.prefix_rfl, fun _ => Export.le_refl _⟩) rfl
  | setTraced isTraced =>
      exact .of_map (fun table => { table with isTraced })
        (fun _ => ⟨rfl, rfl, List.prefix_rfl, fun _ => Export.le_refl _⟩) rfl
  | register entry => exact grows_register h traceAll entry

/-- Whatever is done with a catalog, its tables grow. -/
theorem grows_operate_all (h : catalog.Indexed) (traceAll : Bool) (operations : List Operation) :
    catalog.GrowsInto (catalog.operateAll traceAll operations) := by
  induction operations generalizing catalog with
  | nil => exact .refl catalog
  | cons operation operations ih =>
      exact (grows_operate h traceAll operation).trans (ih (indexed_operate h traceAll operation))

end DecodeTables.Catalog
