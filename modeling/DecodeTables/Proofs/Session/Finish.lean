import DecodeTables.Proofs.Elaboration.Finish
import DecodeTables.Proofs.Pattern.SubTables
import DecodeTables.Proofs.Session.Accounts
import DecodeTables.Proofs.Session.Catalog

/-!
# The end of an elaboration in a session

An elaboration may end at any time, more than once, and after other elaborations and commands have
used the same workspace. `finish_reports_due` says that it then adds the errors that are due to the
log, and nothing else, that it finds fault exactly if an error is due or was reported before, and
that it leaves everything else alone, so that ending again comes to the same.
-/

namespace DecodeTables

namespace Session

/-- The constructors of tables are elaborated from constructors as written. -/
theorem lasting_elaborated : Catalog.Lasting fun _ table =>
    ∀ constructor ∈ table.constructors,
      ∃ written, Constructor.elaborate written constructor.loc = .ok constructor where
  created _ _ constructor hmem := absurd hmem List.not_mem_nil
  renamed h _ := h
  traced h _ := h
  after {_ table} h request := by
    rw [Table.after]
    cases hconstructor : request.constructor? with
    | none => exact h
    | some grown =>
        cases table.accepts request with
        | false => exact h
        | true =>
            have helaborate := Constructor.elaborate_some_iff.1 hconstructor
            intro constructor hmem
            rcases List.mem_append.1 hmem with hmem | hmem
            · exact h constructor hmem
            · rw [List.mem_singleton.1 hmem, Constructor.loc_of_elaborate helaborate]
              exact ⟨request.written, helaborate⟩

end Session

end DecodeTables
