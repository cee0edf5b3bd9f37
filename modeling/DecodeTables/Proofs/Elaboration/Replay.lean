import DecodeTables.Proofs.Catalog.Frame
import DecodeTables.Proofs.Catalog.Registrations
import DecodeTables.Proofs.Elaboration.AddAll
import DecodeTables.Proofs.Table.Batch

/-!
# Going through accepted entries again

A rejected entry leaves nothing in any table that a later entry could notice. So the entries that an
elaboration has `accepted`, given to another one without the others, are all accepted again, and the
tables end up with the same: `replay_accepted`. The two catalogs are in step all along, as they are
`Alike` for every name.
-/

namespace DecodeTables

namespace Catalog

/-- Catalogs whose tables have the same constructors and exports, where a table that is not there
counts as an empty one. -/
def Alike (catalog other : Catalog) : Prop :=
  ∀ name, Table.Alike (catalog.tableFor name) (other.tableFor name)

namespace Alike

variable {catalog other : Catalog} {entry : Entry}

/-- Catalogs that register the same entry stay alike. -/
theorem register (hsame : catalog.Alike other) (h : catalog.Indexed) (h' : other.Indexed)
    (traceAll traceOther : Bool) (entry : Entry) :
    (catalog.register traceAll entry).1.Alike (other.register traceOther entry).1 := by
  intro name
  by_cases hname : entry.table = name
  · rw [← hname, table_for_register_self h, table_for_register_self h']
    exact (hsame entry.table).after entry.request
  · exact ((table_for_register_ne h traceAll hname).symm.trans (hsame name)).trans
      (table_for_register_ne h' traceOther hname)

/-- A catalog that rejects an entry stays like one that is not given the entry. -/
theorem register_rejected (hsame : catalog.Alike other) (h : catalog.Indexed) (traceAll : Bool)
    (hrejects : (catalog.tableFor entry.table).accepts entry.request = false) :
    (catalog.register traceAll entry).1.Alike other := by
  intro name
  by_cases hname : entry.table = name
  · rw [← hname, table_for_register_self h, Table.after_of_rejects hrejects]
    exact hsame entry.table
  · exact (table_for_register_ne h traceAll hname).symm.trans (hsame name)

end Alike

end Catalog

namespace Elaboration

open Catalog (Entry)

/-- The entries that an elaboration accepts when it adds entries in order. -/
def accepted (elaboration : Elaboration) (workspace : Workspace) : List Entry → List Entry
  | [] => []
  | entry :: entries =>
      let first := elaboration.add workspace entry
      let others := first.elaboration.accepted first.workspace entries
      if first.answer then entry :: others else others

/-- Accepted entries are among those that were added, in the same order. -/
theorem accepted_sublist (elaboration : Elaboration) (workspace : Workspace)
    (entries : List Entry) : (elaboration.accepted workspace entries).Sublist entries := by
  induction entries generalizing elaboration workspace with
  | nil => exact .slnil
  | cons entry entries ih =>
      rw [accepted]
      cases (elaboration.add workspace entry).answer with
      | true => exact (ih _ _).cons_cons entry
      | false => exact (ih _ _).cons entry

/-- Every entry that is added is either rejected or accepted. -/
theorem answer_add_length_accepted (elaboration : Elaboration) (workspace : Workspace)
    (entries : List Entry) :
    (elaboration.addAll workspace entries).answer +
      (elaboration.accepted workspace entries).length = entries.length := by
  induction entries generalizing elaboration workspace with
  | nil => rfl
  | cons entry entries ih =>
      have hothers := ih (elaboration.add workspace entry).elaboration
        (elaboration.add workspace entry).workspace
      rw [addAll, accepted]
      cases (elaboration.add workspace entry).answer with
      | true =>
          simp only [↓reduceIte, List.length_cons]
          omega
      | false =>
          simp only [Bool.false_eq_true, ↓reduceIte, List.length_cons]
          omega

/-- Of two elaborations with alike catalogs, one adds entries and the other one only those that the
first one accepts. The second one accepts them too, and the catalogs stay alike. -/
theorem add_all_accepted (elaboration again : Elaboration) {workspace other : Workspace}
    (h : workspace.catalog.Indexed) (h' : other.catalog.Indexed)
    (hsame : workspace.catalog.Alike other.catalog) (entries : List Entry) :
    let added := elaboration.addAll workspace entries
    let replayed := again.addAll other (elaboration.accepted workspace entries)
    (replayed.answer = 0 ∧ replayed.elaboration = again ∧
        replayed.workspace.log = other.log) ∧
      added.workspace.catalog.Alike replayed.workspace.catalog := by
  induction entries generalizing elaboration workspace other with
  | nil => exact ⟨⟨rfl, rfl, rfl⟩, hsame⟩
  | cons entry entries ih =>
      have hanswer := answer_add elaboration workspace entry
      have hcatalog := catalog_add elaboration workspace entry
      have hnext := Catalog.indexed_register h workspace.traceAll entry
      rw [← hcatalog] at hnext
      rw [addAll, accepted, hanswer]
      cases haccepts : (workspace.catalog.tableFor entry.table).accepts entry.request with
      | false =>
          -- only the first elaboration is given the entry
          have hstill := hsame.register_rejected h workspace.traceAll haccepts
          rw [← hcatalog] at hstill
          exact ih _ hnext h' hstill
      | true =>
          have hagain : (other.catalog.tableFor entry.table).accepts entry.request = true :=
            ((hsame entry.table).accepts entry.request).symm.trans haccepts
          obtain ⟨helaboration, hworkspace⟩ := add_of_accepts again hagain
          have hanswer' := answer_add again other entry
          have hcatalog' := catalog_add again other entry
          have hnext' := Catalog.indexed_register h' other.traceAll entry
          have hboth := hsame.register h h' workspace.traceAll other.traceAll entry
          rw [← hcatalog'] at hnext' hboth
          rw [← hcatalog] at hboth
          obtain ⟨⟨hzero, hunchanged, hlog⟩, hothers⟩ :=
            ih (elaboration.add workspace entry).elaboration hnext hnext' hboth
          simp only [↓reduceIte, addAll, hanswer', hagain, helaboration]
          refine ⟨⟨?_, hunchanged, ?_⟩, hothers⟩
          · rw [hzero]
          · rw [hlog, hworkspace]

/-- When entries were added, there is a table for each of them. -/
theorem table_add_all (elaboration : Elaboration) {workspace : Workspace}
    (h : workspace.catalog.Indexed) {entries : List Entry} {entry : Entry}
    (hmem : entry ∈ entries) :
    let after := (elaboration.addAll workspace entries).workspace.catalog
    after.table? entry.table = some (after.tableFor entry.table) := by
  intro after
  have hafter : after = (workspace.catalog.registerAll workspace.traceAll entries).1 :=
    congrArg (fun added => added.workspace.catalog) (add_all_eq elaboration workspace entries)
  have hsome : (after.table? entry.table).isSome = true := by
    rw [hafter, Catalog.table_register_all_is_some h]
    exact .inr ⟨entry, hmem, rfl⟩
  obtain ⟨table, htable⟩ := Option.isSome_iff_exists.1 hsome
  rw [Catalog.tableFor, htable, Option.getD_some]

/-- An elaboration that begins with nothing is given entries, and another one only those of them
that the first one accepts. The second one rejects none of them and reports nothing, and each table
that they name ends up with the constructors and the export that it has for the first one. -/
theorem replay_accepted (rootName otherRoot : String) (traceAll traceOther : Bool)
    (options others : Options) (entries : List Entry) :
    let begun := start options { catalog := .empty rootName, traceAll }
    let added := begun.elaboration.addAll begun.workspace entries
    let kept := begun.elaboration.accepted begun.workspace entries
    let anew := start others { catalog := .empty otherRoot, traceAll := traceOther }
    let replayed := anew.elaboration.addAll anew.workspace kept
    (kept.Sublist entries ∧ added.answer + kept.length = entries.length) ∧
      (replayed.answer = 0 ∧ replayed.elaboration.rejected = 0 ∧
        replayed.workspace.log.entries = []) ∧
      ∀ entry ∈ kept, ∃ table again,
        added.workspace.catalog.table? entry.table = some table ∧
        replayed.workspace.catalog.table? entry.table = some again ∧
        again.constructors = table.constructors ∧ again.exported = table.exported := by
  intro begun added kept anew replayed
  have hindexed : begun.workspace.catalog.Indexed :=
    indexed_start (Catalog.indexed_empty rootName) options
  have hindexed' : anew.workspace.catalog.Indexed :=
    indexed_start (Catalog.indexed_empty otherRoot) others
  have hsame : begun.workspace.catalog.Alike anew.workspace.catalog := by
    intro name
    rw [Catalog.table_for_of_no_tables hindexed rfl, Catalog.table_for_of_no_tables hindexed' rfl]
    exact Catalog.new_table_alike _ _ name
  have hsublist : kept.Sublist entries := accepted_sublist _ _ _
  obtain ⟨⟨hzero, hunchanged, hlog⟩, halike⟩ :=
    add_all_accepted begun.elaboration anew.elaboration hindexed hindexed' hsame entries
  refine ⟨⟨hsublist, answer_add_length_accepted _ _ _⟩, ⟨hzero, ?_, ?_⟩, ?_⟩
  · exact congrArg Elaboration.rejected hunchanged
  · exact congrArg Log.entries hlog
  · intro entry hmem
    have htables := halike entry.table
    exact ⟨_, _, table_add_all _ hindexed (hsublist.subset hmem), table_add_all _ hindexed' hmem,
      htables.constructors.symm, htables.exported.symm⟩

/-- The first entry for `reg` is rejected for its pattern, so it does not decide what the table
exports, and the next one does. An export of another width is rejected after that. -/
theorem replay_accepted_reg :
    let faulty : Entry :=
      ⟨"reg", { pattern := [{ elements := [{ term := .field "" }] }] }, .unknown⟩
    let sized (width : Width) : Entry :=
      ⟨"reg", { execution? := some { exportStatement? := some ⟨.varnode, width⟩ } }, .unknown⟩
    let four := sized ⟨4, by decide⟩
    let entries := [faulty, four, sized ⟨8, by decide⟩, four]
    let begun := start {} { catalog := .empty "insn" }
    let added := begun.elaboration.addAll begun.workspace entries
    let kept := begun.elaboration.accepted begun.workspace entries
    let replayed := begun.elaboration.addAll begun.workspace kept
    kept = [four, four] ∧ replayed.answer = 0 ∧
      four ∈ kept ∧ ∃ table again,
        added.workspace.catalog.table? four.table = some table ∧
        replayed.workspace.catalog.table? four.table = some again ∧
        again.constructors = table.constructors ∧ again.exported = table.exported := by
  intro faulty sized four entries begun added kept replayed
  have hkept : kept = [four, four] := by decide
  have hmem : four ∈ kept := by
    rw [hkept]
    exact List.mem_cons_self
  obtain ⟨-, ⟨hzero, -, -⟩, htables⟩ := replay_accepted "insn" "insn" false false {} {} entries
  -- what is left does not depend on which entries these are, so they need not be added again
  clear_value entries
  exact ⟨hkept, hzero, hmem, htables four hmem⟩

end Elaboration

end DecodeTables
