import Mathlib.Order.Bounds.Basic
import DecodeTables.Proofs.Export.Order

/-!
# The least export that covers two exports

Exports are partially ordered by what covers what. Two of them that are covered by some export agree
in width, `bdd_above_pair_iff`, and their join is then the least export that covers both,
`is_lub_join`. So `unify` decides whether there is a common cover and finds the least one, and the
laws of least upper bounds are laws of `unify`. `extend_finds_least_cover` collects them.
-/

namespace DecodeTables.Export

/-- Exports that cover each other are the same. -/
protected theorem le_antisymm {first second : Export} (h : first ≤ second) (h' : second ≤ first) :
    first = second := by
  rcases h with rfl | ⟨width, hwidth, rfl⟩
  · rfl
  · rcases h' with h' | ⟨other, hother, rfl⟩
    · exact h'
    · cases hwidth
      rfl

instance : PartialOrder Export where
  le_refl := Export.le_refl
  le_trans _ _ _ := Export.le_trans
  le_antisymm _ _ := Export.le_antisymm

variable {first second third cover whole : Export}

/-- Several kinds of values of its width cover an export. -/
theorem le_several (exported : Export) : exported ≤ several exported.width? := by
  cases exported with
  | none => exact le_refl _
  | sized kind width => exact .inr ⟨width, rfl, rfl⟩

/-- What covers two different exports is several kinds of values. -/
theorem eq_several_of_le (hne : first ≠ second) (h : first ≤ cover) (h' : second ≤ cover) :
    cover = several first.width? := by
  rcases h with rfl | ⟨width, hwidth, rfl⟩
  · rcases h' with h' | ⟨width, -, rfl⟩
    · exact absurd h' hne
    · rfl
  · rw [hwidth]
    rfl

/-- The join of two exports that agree in width is the least export that covers both. -/
theorem is_lub_join (hwidth : first.width? = second.width?) :
    IsLUB {first, second} (first.join second) := by
  by_cases hsame : second = first
  · rw [hsame, join_self, Set.pair_eq_singleton]
    exact isLUB_singleton
  · rw [join_of_ne hwidth.symm hsame]
    refine ⟨?_, ?_⟩
    · rintro covered (rfl | rfl)
      · exact le_several _
      · rw [hwidth]
        exact le_several _
    · intro other hother
      exact (eq_several_of_le (Ne.symm hsame) (hother (.inl rfl)) (hother (.inr rfl))).ge

/-- Two exports are covered by some export exactly if they agree in width. -/
theorem bdd_above_pair_iff : BddAbove {first, second} ↔ first.width? = second.width? := by
  refine ⟨?_, fun hwidth => (is_lub_join hwidth).bddAbove⟩
  rintro ⟨cover, hcover⟩
  have hfirst : first ≤ cover := hcover (.inl rfl)
  have hsecond : second ≤ cover := hcover (.inr rfl)
  exact (width_of_le hfirst).symm.trans (width_of_le hsecond)

/-- Unifying two exports finds their least cover. -/
theorem unify_eq_ok_iff : unify first second = .ok cover ↔ IsLUB {first, second} cover := by
  rw [unify_eq]
  split
  · next hwidth =>
      have hjoin := is_lub_join hwidth
      refine ⟨?_, ?_⟩
      · rintro ⟨⟩
        exact hjoin
      · intro hcover
        rw [hjoin.unique hcover]
  · next hwidth =>
      refine ⟨?_, ?_⟩
      · intro h
        cases h
      · intro hcover
        exact absurd (bdd_above_pair_iff.1 hcover.bddAbove) hwidth

/-- Unifying two exports fails exactly if nothing covers both, and names them in order. -/
theorem unify_eq_error_iff {mismatch : Mismatch} :
    unify first second = .error mismatch ↔
      ¬ BddAbove {first, second} ∧ mismatch = ⟨first, second⟩ := by
  rw [unify_eq, bdd_above_pair_iff]
  split
  · next hwidth =>
      refine ⟨?_, fun h => absurd hwidth h.1⟩
      intro h
      cases h
  · next hwidth =>
      refine ⟨?_, ?_⟩
      · rintro ⟨⟩
        exact ⟨hwidth, rfl⟩
      · rintro ⟨-, rfl⟩
        rfl

/-- Two exports are unified exactly if something covers both. -/
theorem exists_unify_iff :
    (∃ cover, unify first second = .ok cover) ↔ BddAbove {first, second} := by
  simp only [unify_eq_ok_iff]
  refine ⟨?_, ?_⟩
  · rintro ⟨cover, hcover⟩
    exact hcover.bddAbove
  · intro hbounded
    exact ⟨_, is_lub_join (bdd_above_pair_iff.1 hbounded)⟩

/-- The mismatch that is found when the two exports change places. -/
def Mismatch.swap (mismatch : Mismatch) : Mismatch where
  expected := mismatch.found
  found := mismatch.expected

/-- The order of two exports matters only to the wording of their mismatch. -/
theorem unify_swap (first second : Export) :
    unify second first = (unify first second).mapError Mismatch.swap := by
  cases h : unify first second with
  | error mismatch =>
      obtain ⟨hnone, rfl⟩ := unify_eq_error_iff.1 h
      rw [Set.pair_comm] at hnone
      exact unify_eq_error_iff.2 ⟨hnone, rfl⟩
  | ok cover =>
      have hcover := unify_eq_ok_iff.1 h
      rw [Set.pair_comm] at hcover
      exact unify_eq_ok_iff.2 hcover

/-- What follows the unification of two exports works on their least cover. -/
theorem unify_bind_eq_ok_iff {next : Export → Except Mismatch Export} :
    (unify first second >>= next) = .ok whole ↔
      ∃ cover, IsLUB {first, second} cover ∧ next cover = .ok whole := by
  cases h : unify first second with
  | error mismatch =>
      refine ⟨?_, ?_⟩
      · intro hwhole
        cases hwhole
      · rintro ⟨cover, hcover, -⟩
        exact absurd hcover.bddAbove (unify_eq_error_iff.1 h).1
  | ok cover =>
      have hcover := unify_eq_ok_iff.1 h
      refine ⟨fun hwhole => ⟨cover, hcover, hwhole⟩, ?_⟩
      rintro ⟨other, hother, hwhole⟩
      rw [hother.unique hcover] at hwhole
      exact hwhole

/-- The least cover of two exports stands for them in what covers them and others. -/
theorem exists_is_lub_insert_iff {others : Set Export} :
    (∃ cover, IsLUB {first, second} cover ∧ IsLUB (insert cover others) whole) ↔
      IsLUB ({first, second} ∪ others) whole := by
  have hstands : ∀ cover, IsLUB {first, second} cover →
      (IsLUB (insert cover others) whole ↔ IsLUB ({first, second} ∪ others) whole) := by
    intro cover hcover
    rw [IsLUB, IsLUB, upperBounds_insert, upperBounds_union, hcover.upperBounds_eq]
  refine ⟨?_, ?_⟩
  · rintro ⟨cover, hcover, hwhole⟩
    exact (hstands cover hcover).1 hwhole
  · intro hwhole
    -- what covers all of them covers the two
    have hbounded : BddAbove {first, second} := hwhole.bddAbove.mono Set.subset_union_left
    have hcover := is_lub_join (bdd_above_pair_iff.1 hbounded)
    exact ⟨_, hcover, (hstands _ hcover).2 hwhole⟩

/-- Three exports can be unified with either two of them first, and give the same. -/
theorem unify_assoc_iff :
    (unify first second >>= fun cover => unify cover third) = .ok whole ↔
      (unify second third >>= fun cover => unify first cover) = .ok whole := by
  have hthree : ({first, second} ∪ {third} : Set Export) = {second, third} ∪ {first} := by
    rw [Set.insert_union, Set.singleton_union, Set.union_singleton]
  simp only [unify_bind_eq_ok_iff, unify_eq_ok_iff]
  rw [exists_is_lub_insert_iff, hthree, ← exists_is_lub_insert_iff]
  simp only [Set.pair_comm first]

/-- Taking an export into an established one succeeds exactly if something covers both, and finds
the least export that does. Otherwise it reports the established export as expected and the other one
as found. An export that is taken into itself stays as it is, the order of two exports matters only
to how their mismatch is worded, and three exports can be grouped either way. -/
theorem extend_finds_least_cover :
    (∀ first second : Export,
      ((∃ cover, extend true first second = .ok cover) ↔ BddAbove {first, second}) ∧
      (∀ cover, extend true first second = .ok cover ↔ IsLUB {first, second} cover) ∧
      ∀ mismatch, extend true first second = .error mismatch ↔
        ¬ BddAbove {first, second} ∧ mismatch = ⟨first, second⟩) ∧
    (∀ exported, extend true exported exported = .ok exported) ∧
    (∀ first second,
      extend true second first = (extend true first second).mapError Mismatch.swap) ∧
    ∀ first second third whole,
      (extend true first second >>= fun cover => extend true cover third) = .ok whole ↔
        (extend true second third >>= fun cover => extend true first cover) = .ok whole := by
  refine ⟨?_, ?_, unify_swap, ?_⟩
  · intro first second
    exact ⟨exists_unify_iff, fun cover => unify_eq_ok_iff, fun mismatch => unify_eq_error_iff⟩
  · intro exported
    have hself : IsLUB {exported, exported} exported := by
      rw [Set.pair_eq_singleton]
      exact isLUB_singleton
    exact unify_eq_ok_iff.2 hself
  · intro first second third whole
    exact unify_assoc_iff

end DecodeTables.Export
