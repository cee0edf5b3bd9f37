import Mathlib.Data.List.Basic
import DecodeTables.Elaboration
import DecodeTables.Proofs.Catalog.Registrations
import DecodeTables.Proofs.Diagnostic.Report

/-!
# What an elaboration does to its workspace

An elaboration that adds entries registers them in the catalog and reports the rejections, one for
each entry that is rejected, in order. `add_all_eq` says all that comes of it, `add_all_counts` how
often entries are rejected and where the reports are placed, and `add_all_append` that entries can
be added in several goes.
-/

namespace DecodeTables.Elaboration

/-- The rejections among outcomes, in order. -/
def rejections (outcomes : List (Except Rejection Unit)) : List Rejection :=
  outcomes.filterMap fun
    | .ok () => none
    | .error rejection => some rejection

theorem rejections_error (rejection : Rejection) (outcomes : List (Except Rejection Unit)) :
    rejections (.error rejection :: outcomes) = rejection :: rejections outcomes :=
  rfl

/-- Without a rejection every outcome is a success. -/
theorem rejections_eq_nil_iff {outcomes : List (Except Rejection Unit)} :
    rejections outcomes = [] ↔ ∀ outcome ∈ outcomes, outcome.isOk = true := by
  rw [rejections, List.filterMap_eq_nil_iff]
  refine forall_congr' fun outcome => imp_congr_right fun _ => ?_
  cases outcome <;> simp [Except.isOk, Except.toBool]

/-- What adding an entry comes to, if the attempt to register it comes to `outcome`. -/
theorem add_eq (elaboration : Elaboration) (workspace : Workspace) (entry : Catalog.Entry) :
    elaboration.add workspace entry =
      let (catalog, attempt) := workspace.catalog.register workspace.traceAll entry
      let rejected := rejections [attempt.outcome]
      { elaboration := { elaboration with rejected := elaboration.rejected + rejected.length }
        workspace := { workspace with
          catalog, log := workspace.log.reportAll (rejected.map Rejection.diagnostic) }
        answer := attempt.outcome.isOk
        trace := attempt.trace } := by
  rw [add]
  rcases workspace.catalog.register workspace.traceAll entry with ⟨catalog, table, outcome, trace⟩
  cases outcome <;> rfl

/-- What adding entries comes to: all are registered, and all rejections reported. -/
theorem add_all_eq (elaboration : Elaboration) (workspace : Workspace)
    (entries : List Catalog.Entry) :
    elaboration.addAll workspace entries =
      let (catalog, attempts) := workspace.catalog.registerAll workspace.traceAll entries
      let rejected := rejections (attempts.map (·.outcome))
      { elaboration := { elaboration with rejected := elaboration.rejected + rejected.length }
        workspace := { workspace with
          catalog, log := workspace.log.reportAll (rejected.map Rejection.diagnostic) }
        answer := rejected.length
        trace := attempts.flatMap (·.trace) } := by
  induction entries generalizing elaboration workspace with
  | nil => rfl
  | cons entry entries ih =>
      rw [addAll, ih, add_eq, Catalog.registerAll]
      rcases workspace.catalog.register workspace.traceAll entry with
        ⟨catalog, table, outcome, trace⟩
      simp only [List.map_cons, List.flatMap_cons, Outcome.mk.injEq]
      cases outcome with
      | ok _ => exact ⟨rfl, rfl, Nat.zero_add _, trivial⟩
      | error rejection =>
          -- the rejection of the first entry is counted and reported before the others
          simp only [rejections_error, List.length_cons, mk.injEq, true_and]
          refine ⟨?_, rfl, Nat.add_comm _ _, trivial⟩
          simp only [rejections, List.filterMap_nil, List.length_nil]
          omega

/-- An elaboration begins with the tables of its workspace, in the same places. -/
theorem indexed_start {workspace : Workspace} (h : workspace.catalog.Indexed) (options : Options) :
    (start options workspace).workspace.catalog.Indexed :=
  Catalog.indexed_set_traced (Catalog.indexed_set_root_name h options.rootName) options.isTraced

theorem catalog_add (elaboration : Elaboration) (workspace : Workspace) (entry : Catalog.Entry) :
    (elaboration.add workspace entry).workspace.catalog =
      (workspace.catalog.register workspace.traceAll entry).1 := by
  rw [add_eq]

/-- An elaboration answers that it registered an entry exactly if the table of the entry accepts
it. -/
theorem answer_add (elaboration : Elaboration) (workspace : Workspace) (entry : Catalog.Entry) :
    (elaboration.add workspace entry).answer =
      (workspace.catalog.tableFor entry.table).accepts entry.request := by
  rw [add_eq]
  exact Table.attempt_is_ok workspace.traceAll _ entry.request

/-- An entry that its table accepts is registered, and nothing more comes of it. -/
theorem add_of_accepts (elaboration : Elaboration) {workspace : Workspace} {entry : Catalog.Entry}
    (h : (workspace.catalog.tableFor entry.table).accepts entry.request = true) :
    (elaboration.add workspace entry).elaboration = elaboration ∧
      (elaboration.add workspace entry).workspace = { workspace with
        catalog := (workspace.catalog.register workspace.traceAll entry).1 } := by
  have hok : (workspace.catalog.register workspace.traceAll entry).2.outcome.isOk = true :=
    (Table.attempt_is_ok workspace.traceAll _ entry.request).trans h
  rw [add_eq]
  cases houtcome : (workspace.catalog.register workspace.traceAll entry).2.outcome with
  | ok _ =>
      simp only [houtcome]
      exact ⟨rfl, rfl⟩
  | error rejection =>
      rw [houtcome] at hok
      cases hok

/-- An entry that its table rejects is counted, and reported as an error at its place. -/
theorem add_of_register_error (elaboration : Elaboration) {workspace : Workspace}
    {entry : Catalog.Entry} {rejection : Rejection}
    (h : (workspace.catalog.tableFor entry.table).register entry.constructor entry.loc =
      .error rejection) :
    (elaboration.add workspace entry).elaboration =
        { elaboration with rejected := elaboration.rejected + 1 } ∧
      (elaboration.add workspace entry).workspace = { workspace with
        catalog := (workspace.catalog.register workspace.traceAll entry).1
        log := workspace.log.report (.error entry.loc rejection.message) } := by
  have houtcome : (workspace.catalog.register workspace.traceAll entry).2.outcome =
      .error rejection := congrArg (Except.map fun _ => ()) h
  rw [add_eq, ← Table.loc_of_register_error h]
  simp only [houtcome]
  exact ⟨rfl, rfl⟩

/-- The number of entries that were rejected. -/
def rejectedCount (events : List (Catalog.Entry × Except Rejection Unit)) : Nat :=
  events.countP fun event => !event.2.isOk

/-- The error, at the place of an entry, that says why the entry was rejected. -/
def complaint? (event : Catalog.Entry × Except Rejection Unit) : Option Diagnostic :=
  match event.2 with
  | .ok () => none
  | .error rejection => some (.error event.1.loc rejection.message)

theorem rejected_count_append (first second : List (Catalog.Entry × Except Rejection Unit)) :
    rejectedCount (first ++ second) = rejectedCount first + rejectedCount second :=
  List.countP_append

/-- There is one rejection for each entry that was rejected. -/
theorem length_rejections (events : List (Catalog.Entry × Except Rejection Unit)) :
    (rejections (events.map Prod.snd)).length = rejectedCount events := by
  rw [rejections, List.length_filterMap_eq_countP, rejectedCount, List.countP_map]
  refine List.countP_congr fun event _ => ?_
  obtain ⟨entry, outcome⟩ := event
  cases outcome <;> simp [Except.isOk, Except.toBool]

/-- Rejections are reported as errors at the places of the entries. -/
theorem diagnostics_rejections {traceAll : Bool} {catalog : Catalog}
    {entries : List Catalog.Entry} :
    (rejections ((catalog.events traceAll entries).map Prod.snd)).map Rejection.diagnostic =
      (catalog.events traceAll entries).filterMap complaint? := by
  rw [rejections, List.filterMap_map, List.map_filterMap]
  refine List.filterMap_congr fun event hmem => ?_
  obtain ⟨entry, outcome⟩ := event
  cases outcome with
  | ok _ => rfl
  | error rejection =>
      have hloc := Catalog.loc_of_event hmem
      simp [Rejection.diagnostic, complaint?, hloc]

/-- Rejections are reported as errors. -/
theorem severity_rejections (rejections : List Rejection) :
    ∀ diagnostic ∈ rejections.map Rejection.diagnostic, diagnostic.severity = .error := by
  intro diagnostic hmem
  obtain ⟨rejection, -, rfl⟩ := List.mem_map.1 hmem
  rfl

/-- Every complaint is an error, and there is one for each entry that was rejected. -/
theorem count_complaints {traceAll : Bool} {catalog : Catalog} {entries : List Catalog.Entry} :
    ((catalog.events traceAll entries).filterMap complaint?).length =
        rejectedCount (catalog.events traceAll entries) ∧
      Log.countOf .error ((catalog.events traceAll entries).filterMap complaint?) =
        rejectedCount (catalog.events traceAll entries) := by
  rw [← diagnostics_rejections, Log.count_errors (severity_rejections _), List.length_map,
    length_rejections]
  exact ⟨rfl, rfl⟩

/-- Adding entries counts those that are rejected, in the answer and by the elaboration, and
complains of each of them. -/
theorem add_all_counts (elaboration : Elaboration) (workspace : Workspace)
    (entries : List Catalog.Entry) :
    let events := workspace.catalog.events workspace.traceAll entries
    let added := elaboration.addAll workspace entries
    added.answer = rejectedCount events ∧
      added.elaboration.rejected = elaboration.rejected + rejectedCount events ∧
      added.workspace.log = workspace.log.reportAll (events.filterMap complaint?) := by
  intro events added
  have hcount := length_rejections events
  rw [Catalog.outcomes_events] at hcount
  have hcomplaints : _ = events.filterMap complaint? := diagnostics_rejections
  rw [Catalog.outcomes_events] at hcomplaints
  rw [← hcount, ← hcomplaints]
  simp only [added, add_all_eq]
  exact ⟨trivial, trivial, trivial⟩

/-- Adding entries after others is going on with the elaboration and the workspace that the others
leave. -/
theorem add_all_append (elaboration : Elaboration) (workspace : Workspace)
    (entries others : List Catalog.Entry) :
    elaboration.addAll workspace (entries ++ others) =
      let first := elaboration.addAll workspace entries
      let second := first.elaboration.addAll first.workspace others
      { second with
        answer := first.answer + second.answer
        trace := first.trace ++ second.trace } := by
  induction entries generalizing elaboration workspace with
  | nil => simp [addAll]
  | cons entry entries ih => simp [addAll, ih, Nat.add_assoc]

end DecodeTables.Elaboration
