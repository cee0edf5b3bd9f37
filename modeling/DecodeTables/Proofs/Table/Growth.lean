import DecodeTables.Proofs.Export.Order
import DecodeTables.Proofs.Table.Register

/-!
# Tables only grow

Whatever is attempted on a table, the table keeps its name and its symbol, and constructors are only
ever added at the end. Its export settles with the first constructor and from then on only moves
upwards. `GrowsInto` says all this of a table and what became of it, and `grows_after` that an
attempt keeps to it.
-/

namespace DecodeTables.Table

/-- `table.GrowsInto later` says that `later` may be what became of a table. -/
structure GrowsInto (table later : Table) : Prop where
  name : later.name = table.name
  symbol : later.symbol = table.symbol
  constructors : table.constructors <+: later.constructors
  exported : table.constructors ≠ [] → table.exported ≤ later.exported

namespace GrowsInto

theorem refl (table : Table) : table.GrowsInto table :=
  ⟨rfl, rfl, List.prefix_rfl, fun _ => Export.le_refl _⟩

variable {table middle later : Table}

/-- A table that has constructors never loses them. -/
theorem nonempty (h : table.GrowsInto later) (hne : table.constructors ≠ []) :
    later.constructors ≠ [] := by
  rintro hempty
  exact hne (List.prefix_nil.1 (hempty ▸ h.constructors))

theorem trans (h : table.GrowsInto middle) (h' : middle.GrowsInto later) :
    table.GrowsInto later where
  name := h'.name.trans h.name
  symbol := h'.symbol.trans h.symbol
  constructors := h.constructors.trans h'.constructors
  exported hne := Export.le_trans (h.exported hne) (h'.exported (h.nonempty hne))

end GrowsInto

/-- Adding a constructor lets a table grow. -/
theorem grows_grow (table : Table) (constructor : Constructor) :
    table.GrowsInto (table.grow constructor) where
  name := rfl
  symbol := rfl
  constructors := List.prefix_append _ _
  exported hne := by
    have hsettled : table.isEmpty = false := by simpa [isEmpty] using hne
    rw [grow, hsettled]
    exact Export.le_join _ _

/-- A table grows by an attempt, or stays as it is. -/
theorem grows_after (table : Table) (request : Request) :
    table.GrowsInto (table.after request) := by
  rw [after]
  cases request.constructor? with
  | none => exact .refl table
  | some constructor =>
      cases table.accepts request with
      | false => exact .refl table
      | true => exact grows_grow table constructor

end DecodeTables.Table
