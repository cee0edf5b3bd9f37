import DecodeTables.Export

/-!
# The export that covers several exports

`Export.join` is what `Export.unify` answers where it answers at all: `unify_eq` says that two
exports have a common cover exactly if their widths agree, which includes that both export nothing.
`foldl_join` computes the cover of a whole list of exports that agree in width, whatever the order
in which they are taken in.
-/

namespace DecodeTables.Export

/-- The export that covers two exports which agree in width. -/
def join : Export → Export → Export
  | sized kind width, sized other _ => sized (kind.join other) width
  | current, _ => current

/-- Exports of several kinds that agree in width: nothing if they have no width. -/
def several : Option Width → Export
  | .none => none
  | some width => sized .multiple width

/-- Two exports have a common cover exactly if their widths agree. -/
theorem unify_eq (current incoming : Export) :
    unify current incoming =
      if current.width? = incoming.width? then .ok (current.join incoming)
      else .error ⟨current, incoming⟩ := by
  cases current with
  | none => cases incoming <;> simp [unify, width?, join]
  | sized kind width => cases incoming <;> simp [unify, width?, join]

/-- The first export is adopted, and later ones are joined to it. -/
theorem extend_eq (isFirst : Bool) (current incoming : Export) :
    extend (!isFirst) current incoming =
      if isFirst || decide (current.width? = incoming.width?) then
        .ok (if isFirst then incoming else current.join incoming)
      else .error ⟨current, incoming⟩ := by
  cases isFirst with
  | true => simp [extend]
  | false => simp [extend, unify_eq]

/-- A cover has the width of the first of the two exports. -/
theorem width_join (current incoming : Export) :
    (current.join incoming).width? = current.width? := by
  cases current <;> cases incoming <;> rfl

/-- An export covers itself. -/
theorem join_self (exported : Export) : exported.join exported = exported := by
  cases exported with
  | none => rfl
  | sized kind width => simp [join, Kind.join]

/-- Different exports which agree in width are covered by no single kind. -/
theorem join_of_ne {current incoming : Export} (hwidth : incoming.width? = current.width?)
    (hne : incoming ≠ current) : current.join incoming = several current.width? := by
  cases current with
  | none =>
      cases incoming with
      | none => exact absurd rfl hne
      | sized kind width => cases hwidth
  | sized kind width =>
      cases incoming with
      | none => cases hwidth
      | sized other width' =>
          cases hwidth
          have hkinds : kind ≠ other := by
            rintro rfl
            exact hne rfl
          simp [join, Kind.join, hkinds, several, width?]

/-- Several kinds stay several kinds, whatever is joined to them. -/
theorem foldl_join_several (width? : Option Width) (others : List Export) :
    others.foldl join (several width?) = several width? := by
  induction others with
  | nil => rfl
  | cons other others ih =>
      have hjoin : (several width?).join other = several width? := by
        cases width? <;> cases other <;> simp [several, join, Kind.join]
      rw [List.foldl_cons, hjoin, ih]

/-- The cover of exports that agree in width is their common value if they are all the same. -/
theorem foldl_join {first : Export} {others : List Export}
    (hwidth : ∀ other ∈ others, other.width? = first.width?) :
    others.foldl join first =
      if ∀ other ∈ others, other = first then first else several first.width? := by
  induction others with
  | nil => simp
  | cons other others ih =>
      rw [List.forall_mem_cons] at hwidth
      rw [List.foldl_cons]
      by_cases hsame : other = first
      · rw [hsame, join_self, ih hwidth.2]
        simp
      · rw [join_of_ne hwidth.1 hsame, foldl_join_several]
        simp [hsame]

end DecodeTables.Export
