import DecodeTables.Proofs.Catalog.Lookup

/-!
# Registrations and the tables they are addressed to

`registerAll` registers entries in order, whatever tables they are for. Seen from one name, all that
happens is that the requests for its table are attempted one after another: `register_all_alike`
says so for the outcomes and for what the table has in the end. `Quiet` changes of a catalog, such
as new names for the root, do not show in any table.
-/

namespace DecodeTables.Catalog

/-- Registers entries in order. Gives the catalog afterwards, and the attempts. -/
def registerAll (traceAll : Bool) (catalog : Catalog) :
    List Entry → Catalog × List Table.Attempt
  | [] => (catalog, [])
  | entry :: entries =>
      let (next, attempt) := catalog.register traceAll entry
      let (last, attempts) := next.registerAll traceAll entries
      (last, attempt :: attempts)

/-- The entries that are registered, each with what came of it. -/
def events (traceAll : Bool) (catalog : Catalog) (entries : List Entry) :
    List (Entry × Except Rejection Unit) :=
  entries.zip ((catalog.registerAll traceAll entries).2.map (·.outcome))

/-- The requests for the table called `name`, in order. -/
def requestsFor (name : String) (entries : List Entry) : List Table.Request :=
  (entries.filter fun entry => entry.table = name).map Entry.request

/-- What came of the entries for the table called `name`, in order. -/
def outcomesFor (name : String) (history : List (Entry × Except Rejection Unit)) :
    List (Except Rejection Unit) :=
  (history.filter fun event => event.1.table = name).map Prod.snd

theorem requests_for_self (entry : Entry) (entries : List Entry) :
    requestsFor entry.table (entry :: entries) =
      entry.request :: requestsFor entry.table entries := by
  rw [requestsFor, List.filter_cons_of_pos (by simp)]
  rfl

theorem requests_for_ne {entry : Entry} {name : String} (hne : entry.table ≠ name)
    (entries : List Entry) : requestsFor name (entry :: entries) = requestsFor name entries := by
  rw [requestsFor, List.filter_cons_of_neg (by simpa using hne)]
  rfl

theorem outcomes_for_self (entry : Entry) (outcome : Except Rejection Unit)
    (history : List (Entry × Except Rejection Unit)) :
    outcomesFor entry.table ((entry, outcome) :: history) =
      outcome :: outcomesFor entry.table history := by
  rw [outcomesFor, List.filter_cons_of_pos (by simp)]
  rfl

theorem outcomes_for_ne {entry : Entry} {name : String} (hne : entry.table ≠ name)
    (outcome : Except Rejection Unit) (history : List (Entry × Except Rejection Unit)) :
    outcomesFor name ((entry, outcome) :: history) = outcomesFor name history := by
  rw [outcomesFor, List.filter_cons_of_neg (by simpa using hne)]
  rfl

theorem requests_for_append (name : String) (first second : List Entry) :
    requestsFor name (first ++ second) = requestsFor name first ++ requestsFor name second := by
  rw [requestsFor, List.filter_append, List.map_append]
  rfl

theorem outcomes_for_append (name : String)
    (first second : List (Entry × Except Rejection Unit)) :
    outcomesFor name (first ++ second) = outcomesFor name first ++ outcomesFor name second := by
  rw [outcomesFor, List.filter_append, List.map_append]
  rfl

/-- `Quiet before after` says that no table shows a difference between two catalogs: `after` may
only have further empty tables. -/
structure Quiet (before after : Catalog) : Prop where
  indexed : after.Indexed
  table : ∀ name, Table.Alike (before.tableFor name) (after.tableFor name)
  kept : ∀ name, (before.table? name).isSome = true → (after.table? name).isSome = true

variable {catalog : Catalog}

/-- New tables are alike, whatever catalog creates them. -/
theorem new_table_alike (catalog other : Catalog) (name : String) :
    Table.Alike (catalog.newTable name) (other.newTable name) :=
  ⟨rfl, rfl, rfl⟩

namespace Quiet

theorem refl (h : catalog.Indexed) : Quiet catalog catalog :=
  ⟨h, fun _ => .refl _, fun _ hsome => hsome⟩

theorem trans {first second third : Catalog} (h : Quiet first second) (h' : Quiet second third) :
    Quiet first third :=
  ⟨h'.indexed, fun name => (h.table name).trans (h'.table name),
    fun name hsome => h'.kept name (h.kept name hsome)⟩

/-- A change of tables that keeps what they have is quiet. -/
theorem of_map {after : Catalog} (hafter : after.Indexed) (change : Table → Table)
    (hchange : ∀ table, Table.Alike table (change table))
    (htable : ∀ name, after.table? name = (catalog.table? name).map change) :
    Quiet catalog after := by
  refine ⟨hafter, ?_, ?_⟩
  · intro name
    rw [tableFor, tableFor, htable]
    cases catalog.table? name with
    | none => exact new_table_alike catalog after name
    | some table => exact hchange table
  · intro name hsome
    rw [htable, Option.isSome_map]
    exact hsome

theorem set_root_name (h : catalog.Indexed) (rootName : String) :
    Quiet catalog (catalog.setRootName rootName) :=
  of_map (indexed_set_root_name h rootName) (fun table => { table with rootName })
    (fun _ => ⟨rfl, rfl, rfl⟩) (table_set_root_name h rootName)

theorem set_traced (h : catalog.Indexed) (isTraced : Bool) :
    Quiet catalog (catalog.setTraced isTraced) :=
  of_map (indexed_set_traced h isTraced) (fun table => { table with isTraced })
    (fun _ => ⟨rfl, rfl, rfl⟩) (table_set_traced catalog isTraced)

theorem ensure (h : catalog.Indexed) (name : String) :
    Quiet catalog (catalog.ensure name).1 := by
  refine ⟨indexed_ensure h name, ?_, ?_⟩
  · intro other
    rw [tableFor.eq_1 (catalog.ensure name).1, table_ensure h]
    by_cases hsame : other = name
    · rw [if_pos hsame, hsame]
      exact .refl _
    · rw [if_neg hsame, tableFor]
      cases catalog.table? other with
      | none => exact new_table_alike _ _ _
      | some table => exact .refl _
  · intro other hsome
    rw [table_ensure h]
    split
    · rfl
    · exact hsome

end Quiet

/-- The table of an entry takes the request of the entry. -/
theorem table_for_register_self (h : catalog.Indexed) (traceAll : Bool) (entry : Entry) :
    (catalog.register traceAll entry).1.tableFor entry.table =
      (catalog.tableFor entry.table).after entry.request := by
  rw [tableFor, table_register h, if_pos rfl]
  rfl

/-- Other tables do not show that something was registered. -/
theorem table_for_register_ne (h : catalog.Indexed) (traceAll : Bool) {entry : Entry}
    {name : String} (hne : entry.table ≠ name) :
    Table.Alike (catalog.tableFor name) ((catalog.register traceAll entry).1.tableFor name) := by
  rw [tableFor, tableFor, table_register h, if_neg (Ne.symm hne)]
  cases catalog.table? name with
  | none => exact new_table_alike _ _ _
  | some table => exact .refl _

/-- Registrations do not rename the root. -/
theorem root_name_register_all (traceAll : Bool) (catalog : Catalog) (entries : List Entry) :
    (catalog.registerAll traceAll entries).1.rootName = catalog.rootName := by
  induction entries generalizing catalog with
  | nil => rfl
  | cons entry entries ih =>
      rw [registerAll, ih]
      exact root_name_register traceAll catalog entry

/-- Every entry is attempted. -/
theorem length_register_all (traceAll : Bool) (catalog : Catalog) (entries : List Entry) :
    (catalog.registerAll traceAll entries).2.length = entries.length := by
  induction entries generalizing catalog with
  | nil => rfl
  | cons entry entries ih => exact congrArg (· + 1) (ih _)

theorem events_cons (traceAll : Bool) (catalog : Catalog) (entry : Entry) (entries : List Entry) :
    catalog.events traceAll (entry :: entries) =
      (entry, (catalog.register traceAll entry).2.outcome) ::
        (catalog.register traceAll entry).1.events traceAll entries :=
  rfl

theorem entries_events (traceAll : Bool) (catalog : Catalog) (entries : List Entry) :
    (catalog.events traceAll entries).map Prod.fst = entries := by
  have hlength := length_register_all traceAll catalog entries
  rw [events, List.map_fst_zip]
  exact Nat.le_of_eq (by rw [List.length_map, hlength])

theorem outcomes_events (traceAll : Bool) (catalog : Catalog) (entries : List Entry) :
    (catalog.events traceAll entries).map Prod.snd =
      (catalog.registerAll traceAll entries).2.map (·.outcome) := by
  have hlength := length_register_all traceAll catalog entries
  rw [events, List.map_snd_zip]
  exact Nat.le_of_eq (by rw [List.length_map, hlength])

/-- Registering entries after others is registering them in the catalog that the others leave. -/
theorem events_append (traceAll : Bool) (catalog : Catalog) (first second : List Entry) :
    catalog.events traceAll (first ++ second) =
      catalog.events traceAll first ++
        (catalog.registerAll traceAll first).1.events traceAll second := by
  induction first generalizing catalog with
  | nil => rfl
  | cons entry first ih =>
      rw [List.cons_append, events_cons, events_cons, ih]
      rfl

/-- What comes of an entry is what its table, as the entries before it leave the catalog, makes of
its constructor. -/
theorem event_at (traceAll : Bool) (catalog : Catalog) (before : List Entry) (entry : Entry)
    (after : List Entry) :
    (catalog.events traceAll (before ++ entry :: after))[before.length]? =
      some (entry, (((catalog.registerAll traceAll before).1.tableFor entry.table).register
        entry.constructor entry.loc).map fun _ => ()) := by
  have hlength : (catalog.events traceAll before).length = before.length := by
    rw [← List.length_map Prod.fst, entries_events]
  rw [events_append, List.getElem?_append_right (Nat.le_of_eq hlength), hlength, Nat.sub_self,
    events_cons]
  rfl

/-- What comes of an entry is what its table makes of its constructor, in the catalog that the
entries before it leave. -/
theorem reached_of_event {traceAll : Bool} {entries : List Entry}
    {event : Entry × Except Rejection Unit} (h : event ∈ catalog.events traceAll entries) :
    ∃ before, event.2 = (((catalog.registerAll traceAll before).1.tableFor event.1.table).register
      event.1.constructor event.1.loc).map fun _ => () := by
  induction entries generalizing catalog with
  | nil => cases h
  | cons entry entries ih =>
      rw [events_cons, List.mem_cons] at h
      rcases h with rfl | h
      · exact ⟨[], rfl⟩
      · obtain ⟨before, houtcome⟩ := ih h
        exact ⟨entry :: before, houtcome⟩

/-- An entry is rejected at its own place. -/
theorem loc_of_event {traceAll : Bool} {entries : List Entry} {entry : Entry}
    {rejection : Rejection} (h : (entry, .error rejection) ∈ catalog.events traceAll entries) :
    rejection.loc = entry.loc := by
  obtain ⟨before, houtcome⟩ := reached_of_event h
  cases hresult : ((catalog.registerAll traceAll before).1.tableFor entry.table).register
      entry.constructor entry.loc with
  | ok grown =>
      rw [hresult] at houtcome
      cases houtcome
  | error found =>
      rw [hresult] at houtcome
      cases houtcome
      exact Table.loc_of_register_error hresult

theorem indexed_register_all (h : catalog.Indexed) (traceAll : Bool) (entries : List Entry) :
    (catalog.registerAll traceAll entries).1.Indexed := by
  induction entries generalizing catalog with
  | nil => exact h
  | cons entry entries ih => exact ih (indexed_register h traceAll entry)

/-- After registrations there are the tables that were there and those that were named. -/
theorem table_register_all_is_some (h : catalog.Indexed) (traceAll : Bool) (entries : List Entry)
    (name : String) :
    ((catalog.registerAll traceAll entries).1.table? name).isSome = true ↔
      (catalog.table? name).isSome = true ∨ ∃ entry ∈ entries, entry.table = name := by
  induction entries generalizing catalog with
  | nil => simp [registerAll]
  | cons entry entries ih =>
      rw [registerAll, ih (indexed_register h traceAll entry), table_register h]
      by_cases hsame : name = entry.table
      · simp [hsame]
      · simp [hsame, Ne.symm hsame]

/-- From the view of one name, registrations are attempts on a table that has nothing to do with the
others. -/
theorem register_all_alike (h : catalog.Indexed) (traceAll traceOther : Bool)
    (entries : List Entry) {name : String} {alone : Table}
    (halike : Table.Alike (catalog.tableFor name) alone) :
    Table.Alike ((catalog.registerAll traceAll entries).1.tableFor name)
        (alone.attemptAll traceOther (requestsFor name entries)).1 ∧
      outcomesFor name (catalog.events traceAll entries) =
        (alone.attemptAll traceOther (requestsFor name entries)).2 := by
  induction entries generalizing catalog alone with
  | nil => exact ⟨halike, rfl⟩
  | cons entry entries ih =>
      have hnext := indexed_register h traceAll entry
      rw [registerAll, events_cons]
      by_cases hsame : entry.table = name
      · subst hsame
        have hafter := halike.after entry.request
        rw [← table_for_register_self h traceAll] at hafter
        obtain ⟨htable, houtcomes⟩ := ih hnext hafter
        have hfirst : (catalog.register traceAll entry).2.outcome =
            (alone.attempt traceOther entry.request.written entry.request.loc).outcome :=
          halike.register entry.request.written entry.request.loc
        -- both tables take the request in the same way, and go on alike
        rw [requests_for_self, outcomes_for_self, Table.attemptAll, Table.attempt_table, hfirst,
          houtcomes]
        exact ⟨htable, rfl⟩
      · have hother := (table_for_register_ne h traceAll hsame).symm.trans halike
        rw [requests_for_ne hsame, outcomes_for_ne hsame]
        exact ih hnext hother

end DecodeTables.Catalog
