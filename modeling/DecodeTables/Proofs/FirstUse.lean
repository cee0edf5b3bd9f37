import Mathlib.Data.Finset.Card
import DecodeTables.FirstUse

/-!
# What a list of first uses is

`ListsFirstUses source listed` says what it means to list first uses, apart from how `firstUses`
finds them: `listed` has the members of `source`, each of them once, in the order in which they
first occur there. `lists_first_uses_iff` says that there is exactly one such list, and that it is
the one that `firstUses` builds.
-/

namespace DecodeTables

variable {α : Type _} [DecidableEq α] {source listed other : List α}

/-- Says that `listed` has the members of `source`, each of them once, ordered by where they first
occur in `source`. -/
structure ListsFirstUses (source listed : List α) : Prop where
  nodup : listed.Nodup
  mem_iff : ∀ item, item ∈ listed ↔ item ∈ source
  ordered : listed.Pairwise fun earlier later => source.idxOf earlier < source.idxOf later

theorem first_uses_append_singleton (items : List α) (last : α) :
    firstUses (items ++ [last]) = addNew (firstUses items) last := by
  rw [firstUses, List.foldl_append]
  rfl

/-- First uses are ordered by where they first occur. -/
theorem ordered_first_uses (items : List α) :
    (firstUses items).Pairwise fun earlier later => items.idxOf earlier < items.idxOf later := by
  -- induction from the end: where an item first occurs does not depend on what comes later
  induction items using List.reverseRecOn with
  | nil => exact .nil
  | append_singleton items last ih =>
      have hkept : (firstUses items).Pairwise fun earlier later =>
          (items ++ [last]).idxOf earlier < (items ++ [last]).idxOf later := by
        refine ih.imp_of_mem ?_
        intro earlier later hearlier hlater hlt
        rw [List.idxOf_append_of_mem (mem_first_uses.1 hearlier),
          List.idxOf_append_of_mem (mem_first_uses.1 hlater)]
        exact hlt
      rw [first_uses_append_singleton, addNew]
      split
      · exact hkept
      · next hnew =>
          rw [mem_first_uses] at hnew
          refine List.pairwise_append.2 ⟨hkept, List.pairwise_singleton _ _, ?_⟩
          intro earlier hearlier later hlater
          rw [mem_first_uses] at hearlier
          rw [List.mem_singleton.1 hlater, List.idxOf_append_of_mem hearlier,
            List.idxOf_append_of_notMem hnew]
          have hbefore := List.idxOf_lt_length_of_mem hearlier
          omega

theorem lists_first_uses (items : List α) : ListsFirstUses items (firstUses items) where
  nodup := nodup_first_uses items
  mem_iff _ := mem_first_uses
  ordered := ordered_first_uses items

namespace ListsFirstUses

/-- There is at most one list of the first uses in `source`. -/
theorem unique (h : ListsFirstUses source listed) (h' : ListsFirstUses source other) :
    listed = other := by
  have hmem : ∀ item, item ∈ listed ↔ item ∈ other := by
    intro item
    rw [h.mem_iff, h'.mem_iff]
  have hperm : listed.Perm other := (List.perm_ext_iff_of_nodup h.nodup h'.nodup).2 hmem
  refine hperm.eq_of_pairwise ?_ h.ordered h'.ordered
  intro first second _ _ hlt hgt
  exact absurd hgt (Nat.lt_asymm hlt)

/-- First uses are as many as there are different members. -/
theorem length_eq (h : ListsFirstUses source listed) :
    listed.length = source.toFinset.card := by
  have hsame : listed.toFinset = source.toFinset := by
    ext item
    rw [List.mem_toFinset, List.mem_toFinset, h.mem_iff]
  rw [← hsame, List.toFinset_card_of_nodup h.nodup]

end ListsFirstUses

/-- The list of the first uses in `source` is the one that `firstUses` builds. -/
theorem lists_first_uses_iff : ListsFirstUses source listed ↔ listed = firstUses source := by
  refine ⟨fun h => h.unique (lists_first_uses source), ?_⟩
  rintro rfl
  exact lists_first_uses source

end DecodeTables
