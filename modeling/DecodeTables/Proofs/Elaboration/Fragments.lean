import Mathlib.Algebra.GroupWithZero.Nat
import DecodeTables.Proofs.Catalog.Settings
import DecodeTables.Proofs.Elaboration.AddAll

/-!
# Specifications in fragments

The entries of a specification may come in fragments, each of which is given to an elaboration of
its own. Every elaboration that begins hands its options to the catalog once more. This changes
nothing where the options are already `Adopted`, `start_of_adopted`, and a catalog that has adopted
options keeps them while entries are added. So the fragments come to the same as all entries at once
for a single elaboration: `fragments_add_up`.
-/

namespace DecodeTables.Elaboration

open Catalog (Entry)

/-- Adds fragments of entries, one after another, each with an elaboration of its own that begins
when its turn comes. Gives what each of the elaborations leads to. -/
def addFragments (options : Options) (workspace : Workspace) :
    List (List Entry) → List (Outcome Nat)
  | [] => []
  | fragment :: fragments =>
      let begun := start options workspace
      let added := begun.elaboration.addAll begun.workspace fragment
      added :: addFragments options added.workspace fragments

/-- A catalog has the settings that are asked for by options, and so have its tables. -/
structure Adopted (options : Options) (catalog : Catalog) : Prop where
  interned : (catalog.names.find? options.rootName).isSome = true
  rootName : catalog.rootName = options.rootName
  isTraced : catalog.isTraced = options.isTraced
  uniform : catalog.Uniform

variable {options : Options} {workspace : Workspace}

/-- The options of an elaboration are adopted when it begins. -/
theorem adopted_start (options : Options) (workspace : Workspace) :
    Adopted options (start options workspace).workspace.catalog where
  interned := by
    show ((workspace.catalog.names.insert options.rootName).find? options.rootName).isSome = true
    rw [Interner.find_insert_self]
    rfl
  rootName := rfl
  isTraced := rfl
  uniform := by
    intro table hmem
    obtain ⟨renamed, hrenamed, rfl⟩ := List.mem_map.1 hmem
    obtain ⟨former, -, rfl⟩ := List.mem_map.1 hrenamed
    exact ⟨rfl, rfl⟩

/-- A registration leaves the settings alone. -/
theorem Adopted.register {catalog : Catalog} (h : Adopted options catalog) (traceAll : Bool)
    (entry : Entry) : Adopted options (catalog.register traceAll entry).1 where
  interned := by
    obtain ⟨symbol, hsymbol⟩ := Option.isSome_iff_exists.1 h.interned
    rw [Catalog.names_register, Interner.find_insert hsymbol]
    rfl
  rootName := (Catalog.root_name_register traceAll catalog entry).trans h.rootName
  isTraced := (Catalog.is_traced_register traceAll catalog entry).trans h.isTraced
  uniform := Catalog.uniform_register h.uniform traceAll entry

/-- So does adding entries. -/
theorem Adopted.add_all (h : Adopted options workspace.catalog) (elaboration : Elaboration)
    (entries : List Entry) :
    Adopted options (elaboration.addAll workspace entries).workspace.catalog := by
  induction entries generalizing elaboration workspace with
  | nil => exact h
  | cons entry entries ih =>
      apply ih
      rw [catalog_add]
      exact h.register workspace.traceAll entry

/-- Where its options are adopted, an elaboration begins without any effect. -/
theorem start_of_adopted (h : Adopted options workspace.catalog) :
    start options workspace = { elaboration := { options }, workspace, answer := () } := by
  have hnamed := Catalog.set_root_name_self h.uniform (h.rootName ▸ h.interned)
  have htraced := Catalog.set_traced_self h.uniform
  rw [h.rootName] at hnamed
  rw [h.isTraced] at htraced
  rw [start, hnamed, htraced]

/-- What an elaboration has rejected before does not matter when it adds entries, except that it
goes on counting from there. -/
theorem add_all_of_new (elaboration : Elaboration) (workspace : Workspace)
    (entries : List Entry) :
    let added := Elaboration.addAll { options := elaboration.options } workspace entries
    elaboration.addAll workspace entries = { added with elaboration :=
      { elaboration with rejected := elaboration.rejected + added.elaboration.rejected } } := by
  simp only [add_all_eq, Nat.zero_add]

/-- The end of an elaboration depends on its options only, except for what the trace is told. -/
theorem finish_of_options {elaboration other : Elaboration}
    (h : elaboration.options = other.options) (workspace : Workspace) :
    (elaboration.finish workspace).answer = (other.finish workspace).answer ∧
      (elaboration.finish workspace).workspace = (other.finish workspace).workspace := by
  simp only [finish, errors, h, and_self]

theorem options_add_all (elaboration : Elaboration) (workspace : Workspace)
    (entries : List Entry) :
    (elaboration.addAll workspace entries).elaboration.options = elaboration.options := by
  rw [add_all_eq]

/-- All fragments are added by elaborations with the same options. -/
theorem options_add_fragments (options : Options) (workspace : Workspace)
    (fragments : List (List Entry)) :
    ∀ part ∈ addFragments options workspace fragments, part.elaboration.options = options := by
  induction fragments generalizing workspace with
  | nil => simp [addFragments]
  | cons fragment fragments ih =>
      rw [addFragments, List.forall_mem_cons]
      exact ⟨options_add_all _ _ fragment, ih _⟩

/-- There is one elaboration for each fragment. -/
theorem length_add_fragments (options : Options) (workspace : Workspace)
    (fragments : List (List Entry)) :
    (addFragments options workspace fragments).length = fragments.length := by
  induction fragments generalizing workspace with
  | nil => rfl
  | cons fragment fragments ih => exact congrArg (· + 1) (ih _)

/-- Where options are adopted, fragments come to the same as all entries at once. -/
theorem add_fragments_of_adopted (h : Adopted options workspace.catalog)
    (fragments : List (List Entry)) :
    let single := Elaboration.addAll { options } workspace fragments.flatten
    let parts := addFragments options workspace fragments
    (parts.getLast?.map Outcome.workspace).getD workspace = single.workspace ∧
      (parts.map fun part => part.elaboration.rejected).sum = single.elaboration.rejected ∧
      parts.flatMap Outcome.trace = single.trace := by
  induction fragments generalizing workspace with
  | nil => exact ⟨rfl, rfl, rfl⟩
  | cons fragment fragments ih =>
      have hnext := h.add_all { options } fragment
      obtain ⟨hworkspace, hrejected, htrace⟩ := ih hnext
      -- the options are still adopted when the next elaboration begins
      simp only [addFragments, start_of_adopted h, List.flatten_cons, add_all_append,
        List.getLast?_cons, List.map_cons, List.sum_cons, List.flatMap_cons, hrejected, htrace]
      rw [add_all_of_new (Elaboration.addAll _ _ _).elaboration, options_add_all]
      refine ⟨?_, rfl, rfl⟩
      rw [← hworkspace, Option.map_some, Option.getD_some]
      cases (addFragments options _ fragments).getLast? <;> rfl

/-- Elaborations with the same options that add the fragments of a specification, each beginning
when its fragment is due, come to the same as a single elaboration that adds all entries. The last
one leaves the workspace as the single one does: the same tables under the same numbers, and the
same diagnostics. If it ends, it comes to the same verdict, and reports the same. All of them
together reject as many entries as the single one, and tell the trace the same. -/
theorem fragments_add_up (options : Options) (workspace : Workspace) {entries : List Entry}
    {fragments : List (List Entry)} (hcut : fragments.flatten = entries)
    (hsome : fragments ≠ []) :
    let begun := start options workspace
    let single := begun.elaboration.addAll begun.workspace entries
    let parts := addFragments options workspace fragments
    parts.length = fragments.length ∧
      (∃ last, parts.getLast? = some last ∧
        last.workspace = single.workspace ∧
        (last.elaboration.finish last.workspace).answer =
          (single.elaboration.finish single.workspace).answer ∧
        (last.elaboration.finish last.workspace).workspace =
          (single.elaboration.finish single.workspace).workspace) ∧
      (parts.map fun part => part.elaboration.rejected).sum = single.elaboration.rejected ∧
      parts.flatMap Outcome.trace = single.trace := by
  intro begun single parts
  have hadopted : Adopted options begun.workspace.catalog := adopted_start options workspace
  -- the first elaboration makes the catalog adopt the options, and then might as well begin again
  have hparts : parts = addFragments options begun.workspace fragments := by
    cases fragments with
    | nil => exact absurd rfl hsome
    | cons fragment fragments => simp only [addFragments, start_of_adopted hadopted, parts]; rfl
  have hlength := length_add_fragments options workspace fragments
  have hoptions := options_add_fragments options workspace fragments
  obtain ⟨hworkspace, hrejected, htrace⟩ := add_fragments_of_adopted hadopted fragments
  rw [hcut, ← hparts] at hworkspace hrejected htrace
  refine ⟨hlength, ?_, hrejected, htrace⟩
  have hne : parts ≠ [] := List.ne_nil_of_length_pos (hlength ▸ List.length_pos_iff.2 hsome)
  have hlast := List.getLast?_eq_some_getLast hne
  rw [hlast, Option.map_some, Option.getD_some] at hworkspace
  have hsame : (parts.getLast hne).elaboration.options = single.elaboration.options :=
    (hoptions _ (List.getLast_mem hne)).trans (options_add_all begun.elaboration _ entries).symm
  refine ⟨parts.getLast hne, hlast, hworkspace, ?_⟩
  rw [hworkspace]
  exact finish_of_options hsame _

/-- Three fragments, one of them empty. The root is renamed when the first of them begins, and each
of the others has an entry that is rejected. -/
theorem fragments_add_up_reg :
    let sized (width : Width) : Entry :=
      ⟨"reg", { execution? := some { exportStatement? := some ⟨.varnode, width⟩ } }, .unknown⟩
    let four := sized ⟨4, by decide⟩
    let eight := sized ⟨8, by decide⟩
    let fragments := [[four, eight], [], [eight, four]]
    let workspace : Workspace := { catalog := ((Catalog.empty "insn").ensure "reg").1 }
    let parts := addFragments { rootName := "reg" } workspace fragments
    let begun := start { rootName := "reg" } workspace
    let single := begun.elaboration.addAll begun.workspace [four, eight, eight, four]
    (fragments.flatten = [four, eight, eight, four] ∧ fragments ≠ []) ∧
      (parts.map fun part => part.elaboration.rejected) = [1, 0, 1] ∧
      single.elaboration.rejected = 2 ∧
      ∃ last, parts.getLast? = some last ∧ last.workspace = single.workspace ∧
        (last.elaboration.finish last.workspace).answer = false := by
  intro sized four eight fragments workspace parts begun single
  have hcut : fragments.flatten = [four, eight, eight, four] := rfl
  have hsome : fragments ≠ [] := List.cons_ne_nil _ _
  have hcounts : (parts.map fun part => part.elaboration.rejected) = [1, 0, 1] := by decide
  have hbad : (single.elaboration.finish single.workspace).answer = false := by decide
  obtain ⟨-, ⟨last, hlast, hworkspace, hanswer, -⟩, hrejected, -⟩ :=
    fragments_add_up { rootName := "reg" } workspace hcut hsome
  refine ⟨⟨hcut, hsome⟩, hcounts, ?_, last, hlast, hworkspace, hanswer.trans hbad⟩
  rw [← hrejected, hcounts]
  rfl

end DecodeTables.Elaboration
