import DecodeTables.Proofs.Export.Join

/-!
# The order of exports

An export is below those that cover it: itself, and several kinds of its width. So a value is below
values of its own width, of its own kind or of several kinds, `sized_le_iff`. Joining exports only
ever leads upwards, `le_join`.
-/

namespace DecodeTables.Export

/-- `current ≤ cover` says that `cover` is the same export, or stands for several kinds of values of
the same width. -/
instance : LE Export where
  le current cover :=
    cover = current ∨ ∃ width, current.width? = some width ∧ cover = .sized .multiple width

variable {current middle cover : Export}

protected theorem le_refl (exported : Export) : exported ≤ exported :=
  Or.inl rfl

/-- An export has the width of those that it covers. -/
theorem width_of_le (h : current ≤ cover) : cover.width? = current.width? := by
  rcases h with rfl | ⟨width, hwidth, rfl⟩
  · rfl
  · exact hwidth.symm

/-- A value is covered by values of its width, of the same kind or of several kinds. -/
theorem sized_le_iff {kind : Kind} {width : Width} :
    .sized kind width ≤ cover ↔ cover = .sized kind width ∨ cover = .sized .multiple width := by
  refine or_congr_right ?_
  simp [width?]

protected theorem le_trans (h : current ≤ middle) (h' : middle ≤ cover) : current ≤ cover := by
  rcases h' with rfl | ⟨width, hwidth, rfl⟩
  · exact h
  · exact Or.inr ⟨width, (width_of_le h).symm.trans hwidth, rfl⟩

/-- What is joined to an export is covered together with it. -/
theorem le_join (current incoming : Export) : current ≤ current.join incoming := by
  cases current with
  | none => exact Export.le_refl _
  | sized kind width =>
      cases incoming with
      | none => exact Export.le_refl _
      | sized other width' =>
          rw [sized_le_iff, join, Kind.join]
          by_cases hsame : kind = other <;> simp [hsame]

end DecodeTables.Export
