import DecodeTables.Catalog.Undefined
import DecodeTables.Proofs.Catalog.Frame
import DecodeTables.Proofs.Catalog.Registrations
import DecodeTables.Proofs.Pattern.SubTables
import DecodeTables.Proofs.Table.Agreement

/-!
# Catalogs in which everything was registered

A catalog is `Settled` with entries if it has one table for each name among them, with the
constructors of all entries for that name. Registering entries that agree leads there, from a
catalog without tables: `outcomes_ok_iff` and `settled_of_outcomes`. In a settled catalog no table
is empty, so the tables that are undefined are those that no entry is for.
-/

namespace DecodeTables.Catalog

variable {catalog : Catalog} {entries : List Entry}

theorem mem_requests_for {name : String} {request : Table.Request} :
    request ∈ requestsFor name entries ↔
      ∃ entry ∈ entries, entry.table = name ∧ entry.request = request := by
  simp [requestsFor, and_assoc]

/-- Some property holds of all outcomes if it holds of those for each table. -/
theorem forall_outcomes_for {events : List (Entry × Except Rejection Unit)}
    {holds : Except Rejection Unit → Prop} :
    (∀ outcome ∈ events.map Prod.snd, holds outcome) ↔
      ∀ name, ∀ outcome ∈ outcomesFor name events, holds outcome := by
  simp only [outcomesFor, List.forall_mem_map, List.mem_filter, decide_eq_true_eq]
  constructor
  · intro h name event hevent
    exact h event hevent.1
  · intro h event hmem
    exact h event.1.table event ⟨hmem, rfl⟩

/-- In a catalog without tables all entries are registered exactly if those for each table agree. -/
theorem outcomes_ok_iff (h : catalog.Indexed) (hempty : catalog.tables = []) (traceAll : Bool) :
    (∀ outcome ∈ (catalog.registerAll traceAll entries).2.map (·.outcome),
        outcome.isOk = true) ↔
      ∀ name, Table.Agreeing name (requestsFor name entries) := by
  -- each table is asked for its own requests only, so the tables can be looked at one by one
  rw [← outcomes_events, forall_outcomes_for]
  refine forall_congr' fun name => ?_
  rw [(register_all_alike h traceAll traceAll entries (.refl (catalog.tableFor name))).2,
    table_for_of_no_tables h hempty]
  exact Table.attempts_ok_iff rfl traceAll _

/-- The constructor of an entry continues with the tables that its pattern mentions. -/
theorem mem_sub_tables_iff {entry : Entry} {constructor : Constructor}
    (h : entry.request.constructor? = some constructor) {name : String} :
    name ∈ constructor.pattern.subTables ↔ name ∈ Pattern.mentions entry.constructor.pattern := by
  obtain ⟨pattern, hpattern, rfl⟩ :=
    Constructor.elaborate_eq_ok_iff.1 (Constructor.elaborate_some_iff.1 h)
  exact Pattern.mem_sub_tables_elaborate hpattern

/-- The catalog has one table for each name among the entries, and nothing else. -/
structure Settled (catalog : Catalog) (entries : List Entry) : Prop where
  indexed : catalog.Indexed
  sound : ∀ entry ∈ entries, entry.request.isSound = true
  named : ∀ name, (catalog.table? name).isSome = true ↔ ∃ entry ∈ entries, entry.table = name
  constructors : ∀ {name table}, catalog.table? name = some table →
    table.constructors = (requestsFor name entries).filterMap Table.Request.constructor?

/-- Registering entries without a rejection in a catalog without tables settles the catalog. -/
theorem settled_of_outcomes (h : catalog.Indexed) (hempty : catalog.tables = []) {traceAll : Bool}
    (hok : ∀ outcome ∈ (catalog.registerAll traceAll entries).2.map (·.outcome),
      outcome.isOk = true) :
    Settled (catalog.registerAll traceAll entries).1 entries := by
  have hagree := (outcomes_ok_iff h hempty traceAll).1 hok
  refine ⟨indexed_register_all h traceAll entries, ?_, ?_, ?_⟩
  · intro entry hmem
    exact (hagree entry.table).sound _ (mem_requests_for.2 ⟨entry, hmem, rfl, rfl⟩)
  · intro name
    rw [table_register_all_is_some h, (h.table_eq_find name), hempty]
    exact or_iff_right (by simp [called?])
  · intro name table htable
    obtain ⟨halike, -⟩ :=
      register_all_alike h traceAll traceAll entries (.refl (catalog.tableFor name))
    rw [tableFor.eq_1 (catalog.registerAll traceAll entries).1, htable, Option.getD_some,
      table_for_of_no_tables h hempty] at halike
    rw [halike.constructors]
    exact Table.constructors_of_attempts_ok ((Table.attempts_ok_iff rfl traceAll _).2 (hagree name))

namespace Settled

/-- The tables that are defined are those that there are entries for. -/
theorem is_defined_iff (h : catalog.Settled entries) (name : String) :
    catalog.isDefined name = true ↔ ∃ entry ∈ entries, entry.table = name := by
  rw [isDefined, ← h.named]
  cases htable : catalog.table? name with
  | none => simp
  | some table =>
      -- the table is there because of some entry, and has its constructor
      obtain ⟨entry, hmem, hname⟩ := (h.named name).1 (by rw [htable]; rfl)
      obtain ⟨constructor, hconstructor⟩ := Table.Request.exists_constructor (h.sound entry hmem)
      have hhas : constructor ∈ table.constructors := by
        rw [h.constructors htable, List.mem_filterMap]
        exact ⟨entry.request, mem_requests_for.2 ⟨entry, hmem, hname, rfl⟩, hconstructor⟩
      have hne := List.ne_nil_of_mem hhas
      simp [Table.isEmpty, hne]

/-- The constructors in tables are those of the entries. -/
theorem mem_constructors_iff (h : catalog.Settled entries) {constructor : Constructor} :
    (∃ table ∈ catalog.tables, constructor ∈ table.constructors) ↔
      ∃ entry ∈ entries, entry.request.constructor? = some constructor := by
  constructor
  · intro hmem
    obtain ⟨table, hmem, hconstructor⟩ := hmem
    have htable := h.indexed.table_eq_some_iff.2 ⟨hmem, rfl⟩
    rw [h.constructors htable, List.mem_filterMap] at hconstructor
    obtain ⟨request, hrequest, hconstructor⟩ := hconstructor
    obtain ⟨entry, hentry, -, rfl⟩ := mem_requests_for.1 hrequest
    exact ⟨entry, hentry, hconstructor⟩
  · intro hmem
    obtain ⟨entry, hentry, hconstructor⟩ := hmem
    have hsome := (h.named entry.table).2 ⟨entry, hentry, rfl⟩
    obtain ⟨table, htable⟩ := Option.isSome_iff_exists.1 hsome
    refine ⟨table, (h.indexed.table_eq_some_iff.1 htable).1, ?_⟩
    rw [h.constructors htable, List.mem_filterMap]
    exact ⟨entry.request, mem_requests_for.2 ⟨entry, hentry, rfl, rfl⟩, hconstructor⟩

/-- A constructor uses no undefined table exactly if all tables that its pattern continues with are
defined. What it builds does not matter: a built name is either defined or not a table at all. -/
theorem undefined_by_eq_nil_iff (h : catalog.Settled entries) (table : Table)
    (constructor : Constructor) :
    catalog.undefinedBy table constructor = [] ↔
      ∀ name ∈ constructor.pattern.subTables, catalog.isDefined name = true := by
  have hbuilt : (constructor.builds.filter fun name =>
      (catalog.find? name).isSome && !catalog.isDefined name) = [] := by
    rw [List.filter_eq_nil_iff]
    intro name _
    rw [h.indexed.find_is_some, Bool.and_eq_true, h.named, ← h.is_defined_iff]
    simp
  rw [undefinedBy, hbuilt, List.map_nil, List.append_nil, List.map_eq_nil_iff,
    List.filter_eq_nil_iff]
  simp

/-- No constructor uses an undefined table exactly if there is an entry for every table that the
pattern of an entry mentions. -/
theorem undefined_tables_eq_nil_iff (h : catalog.Settled entries) :
    catalog.undefinedTables = [] ↔
      ∀ entry ∈ entries, ∀ name ∈ Pattern.mentions entry.constructor.pattern,
        ∃ other ∈ entries, other.table = name := by
  have hdefined : catalog.undefinedTables = [] ↔
      ∀ constructor, (∃ table ∈ catalog.tables, constructor ∈ table.constructors) →
        ∀ name ∈ constructor.pattern.subTables, catalog.isDefined name = true := by
    simp only [undefinedTables, List.flatMap_eq_nil_iff, h.undefined_by_eq_nil_iff]
    constructor
    · intro hall constructor hmem
      obtain ⟨table, htable, hmem⟩ := hmem
      exact hall table htable constructor hmem
    · intro hall table htable constructor hmem
      exact hall constructor ⟨table, htable, hmem⟩
  rw [hdefined]
  constructor
  · intro hall entry hentry name hname
    obtain ⟨constructor, hconstructor⟩ := Table.Request.exists_constructor (h.sound entry hentry)
    rw [← h.is_defined_iff]
    apply hall constructor (h.mem_constructors_iff.2 ⟨entry, hentry, hconstructor⟩)
    exact (mem_sub_tables_iff hconstructor).2 hname
  · intro hall constructor hmem name hname
    obtain ⟨entry, hentry, hconstructor⟩ := h.mem_constructors_iff.1 hmem
    rw [h.is_defined_iff]
    exact hall entry hentry name ((mem_sub_tables_iff hconstructor).1 hname)

end Settled

end DecodeTables.Catalog
