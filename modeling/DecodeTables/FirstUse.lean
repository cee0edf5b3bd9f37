/-!
# Distinct values in order of first use

Lists that collect names keep each name once, where it was first used. `addNew` takes one more
value into such a list and `firstUses` builds the list of a whole sequence. `mem_first_uses` says
that no value is lost or invented and `nodup_first_uses` that none is kept twice.
-/

namespace DecodeTables

variable {α : Type _} [DecidableEq α]

/-- `addNew seen item` lists `item` after `seen`, unless `seen` has it already. -/
def addNew (seen : List α) (item : α) : List α :=
  if item ∈ seen then seen else seen ++ [item]

/-- The distinct members of `items`, in order of first use. -/
def firstUses (items : List α) : List α :=
  items.foldl addNew []

theorem mem_add_new {seen : List α} {item other : α} :
    other ∈ addNew seen item ↔ other ∈ seen ∨ other = item := by
  unfold addNew
  split <;> simp_all

theorem nodup_add_new {seen : List α} {item : α} (hseen : seen.Nodup) :
    (addNew seen item).Nodup := by
  unfold addNew
  split
  · exact hseen
  · next hnew =>
    refine List.nodup_append.2 ⟨hseen, by simp, fun a ha b hb hab => hnew ?_⟩
    simp_all

theorem mem_foldl_add_new {items seen : List α} {other : α} :
    other ∈ items.foldl addNew seen ↔ other ∈ seen ∨ other ∈ items := by
  induction items generalizing seen with
  | nil => simp
  | cons item rest ih => simp [ih, mem_add_new, or_assoc]

theorem nodup_foldl_add_new {items seen : List α} (hseen : seen.Nodup) :
    (items.foldl addNew seen).Nodup := by
  induction items generalizing seen with
  | nil => exact hseen
  | cons item rest ih => exact ih (nodup_add_new hseen)

/-- Taking in the values of one list after those of another is taking in the distinct values that
both have, in order of first use. -/
theorem foldl_add_new_foldl (items first seen : List α) :
    (items.foldl addNew first).foldl addNew seen =
      items.foldl addNew (first.foldl addNew seen) := by
  induction items generalizing first with
  | nil => rfl
  | cons item rest ih =>
    have hitem : (addNew first item).foldl addNew seen = addNew (first.foldl addNew seen) item := by
      by_cases hmem : item ∈ first
      · -- a value that `first` has already is not new afterwards
        have hseen : item ∈ first.foldl addNew seen := mem_foldl_add_new.2 (Or.inr hmem)
        rw [addNew, if_pos hmem, addNew, if_pos hseen]
      · rw [addNew, if_neg hmem, List.foldl_append]
        rfl
    rw [List.foldl_cons, ih, hitem]
    rfl

/-- Values that are taken in after `seen` come behind it, without those that it has. -/
theorem foldl_add_new_append_filter (items seen later : List α) :
    items.foldl addNew (seen ++ later.filter (· ∉ seen)) =
      seen ++ (items.foldl addNew later).filter (· ∉ seen) := by
  refine List.foldl_hom (fun later : List α => seen ++ later.filter (· ∉ seen)) ?_
  intro later item
  by_cases hlater : item ∈ later
  · have hmem : item ∈ seen ++ later.filter (· ∉ seen) := by
      by_cases hseen : item ∈ seen <;> simp [hseen, hlater]
    rw [addNew, if_pos hmem, addNew, if_pos hlater]
  · by_cases hseen : item ∈ seen <;> simp [addNew, hseen, hlater]

/-- Values that are all new and different are listed as they come. -/
theorem foldl_add_new_of_nodup {items seen : List α} (h : (seen ++ items).Nodup) :
    items.foldl addNew seen = seen ++ items := by
  induction items generalizing seen with
  | nil => exact (List.append_nil seen).symm
  | cons item rest ih =>
    have hnew : item ∉ seen := by
      intro hseen
      exact (List.nodup_append.1 h).2.2 item hseen item List.mem_cons_self rfl
    rw [List.append_cons] at h
    rw [List.foldl_cons, addNew, if_neg hnew, ih h, ← List.append_cons]

/-- Values none of which occurs twice are their own first uses. -/
theorem first_uses_of_nodup {items : List α} (h : items.Nodup) : firstUses items = items :=
  foldl_add_new_of_nodup h

/-- The distinct members are the members. -/
theorem mem_first_uses {items : List α} {other : α} : other ∈ firstUses items ↔ other ∈ items := by
  simp [firstUses, mem_foldl_add_new]

/-- No value is listed twice. -/
theorem nodup_first_uses (items : List α) : (firstUses items).Nodup :=
  nodup_foldl_add_new List.nodup_nil

end DecodeTables
