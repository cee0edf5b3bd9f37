import DecodeTables.Proofs.Pattern.Faults

/-!
# The first fault of a pattern

A pattern is read block by block, and a block element by element. `FaultAt` says what is wrong at a
place of a pattern, and `FirstFault` that nothing is wrong before. `elaborate_reports_first_fault`
says that elaboration fails exactly if something is wrong, that it reports the first fault, and that
nothing after this fault matters.
-/

namespace DecodeTables.Pattern

/-- A place in a pattern: the number of a block, and that of an element of the block. -/
structure Place where
  block : Nat
  element : Nat
deriving DecidableEq, Repr

/-- Says that `first` is read before `second`. -/
def Place.Before (first second : Place) : Prop :=
  first.block < second.block ∨ first.block = second.block ∧ first.element < second.element

/-- `FaultAt written loc place fault` says that a pattern at `loc` has the fault `fault` at
`place`. -/
def FaultAt (written : Written) (loc : Location) (place : Place) (fault : Fault) : Prop :=
  ∃ block, written[place.block]? = some block ∧ block.FaultAt loc place.element fault

/-- `FirstFault written loc place fault` says that a pattern at `loc` has the fault `fault` at
`place`, and no fault before. -/
def FirstFault (written : Written) (loc : Location) (place : Place) (fault : Fault) : Prop :=
  FaultAt written loc place fault ∧
    ∀ earlier other, earlier.Before place → ¬ FaultAt written loc earlier other

/-- What has been read of a pattern once `place` has been read. -/
def readThrough (written : Written) (place : Place) : Written :=
  (written.take (place.block + 1)).modify place.block (·.cut (place.element + 1))

variable {written : Written} {loc : Location} {place : Place} {fault : Fault}

/-- Taking a block in fails if its elaboration does, and with the same fault. -/
theorem elaborate_of_append_error {pattern : Pattern} {block : WrittenBlock}
    (h : pattern.append <$> Block.elaborate loc block = .error fault) :
    Block.elaborate loc block = .error fault := by
  cases hblock : Block.elaborate loc block with
  | error found =>
      rw [hblock] at h
      cases h
      rfl
  | ok next =>
      rw [hblock] at h
      cases h

theorem elaborate_of_append_ok {pattern last : Pattern} {block : WrittenBlock}
    (h : pattern.append <$> Block.elaborate loc block = .ok last) :
    ∃ next, Block.elaborate loc block = .ok next := by
  cases hblock : Block.elaborate loc block with
  | error found =>
      rw [hblock] at h
      cases h
  | ok next => exact ⟨next, rfl⟩

/-- A pattern that is elaborated has no faults. -/
theorem not_fault_at_of_elaborate {pattern : Pattern} (h : elaborate written loc = .ok pattern) :
    ¬ FaultAt written loc place fault := by
  rintro ⟨block, hblock, hfault⟩
  obtain ⟨state, next, -, hstep⟩ := exists_step_of_fold_ok h hblock
  obtain ⟨_, helaborate⟩ := elaborate_of_append_ok hstep
  exact Block.not_fault_at_of_elaborate helaborate _ _ hfault

/-- A pattern that is not elaborated is rejected for its first fault. -/
theorem first_fault_of_elaborate (h : elaborate written loc = .error fault) :
    ∃ place, FirstFault written loc place fault := by
  obtain ⟨index, block, state, hblock, hstate, hstep⟩ := exists_step_of_fold_error h
  obtain ⟨element, hfault, hfirst⟩ :=
    Block.first_fault_of_elaborate (elaborate_of_append_error hstep)
  refine ⟨⟨index, element⟩, ⟨block, hblock, hfault⟩, ?_⟩
  rintro ⟨earlier, position⟩ other (hbefore | ⟨rfl, hbefore⟩) ⟨found, hfound, hother⟩
  · obtain ⟨_, _, -, hnext⟩ := exists_step_of_take_ok hstate hbefore hfound
    obtain ⟨_, helaborate⟩ := elaborate_of_append_ok hnext
    exact Block.not_fault_at_of_elaborate helaborate _ _ hother
  · cases hblock.symm.trans hfound
    exact hfirst position hbefore other hother

/-- A pattern has one first fault. -/
theorem FirstFault.unique {other : Place} {found : Fault} (h : FirstFault written loc place fault)
    (hother : FirstFault written loc other found) : fault = found := by
  -- neither of the two places is read before the other
  have hplace : place = other := by
    have hnot : ¬ place.Before other := fun hbefore => hother.2 _ _ hbefore h.1
    have hnot' : ¬ other.Before place := fun hbefore => h.2 _ _ hbefore hother.1
    cases place
    cases other
    simp only [Place.Before] at hnot hnot'
    simp only [Place.mk.injEq]
    omega
  subst hplace
  obtain ⟨⟨block, hblock, hfault⟩, hfirst⟩ := h
  obtain ⟨⟨_, hsame, hfound⟩, -⟩ := hother
  cases hblock.symm.trans hsame
  refine hfault.unique hfound ?_
  intro earlier hearlier fault hearlierFault
  exact hfirst ⟨place.block, earlier⟩ fault (.inr ⟨rfl, hearlier⟩) ⟨block, hblock, hearlierFault⟩

/-- The first fault of a pattern is the one that it is rejected for. -/
theorem elaborate_of_first_fault (h : FirstFault written loc place fault) :
    elaborate written loc = .error fault := by
  cases helaborate : elaborate written loc with
  | error found =>
      obtain ⟨other, hfound⟩ := first_fault_of_elaborate helaborate
      rw [h.unique hfound]
  | ok pattern => exact absurd h.1 (not_fault_at_of_elaborate helaborate)

/-- Elaboration succeeds exactly if a pattern has no fault. -/
theorem exists_elaborate_iff :
    (∃ pattern, elaborate written loc = .ok pattern) ↔
      ∀ place fault, ¬ FaultAt written loc place fault := by
  refine ⟨?_, ?_⟩
  · rintro ⟨pattern, h⟩ place fault
    exact not_fault_at_of_elaborate h
  · intro hnone
    cases h : elaborate written loc with
    | error fault =>
        obtain ⟨place, hfault, -⟩ := first_fault_of_elaborate h
        exact absurd hfault (hnone place fault)
    | ok pattern => exact ⟨pattern, rfl⟩

/-- What is wrong up to a place does not depend on what comes after it. -/
theorem fault_at_read_through {other : Place} (h : ¬ place.Before other) :
    FaultAt (readThrough written place) loc other fault ↔ FaultAt written loc other fault := by
  obtain hblock | ⟨hblock, helement⟩ :
      other.block < place.block ∨ other.block = place.block ∧ other.element ≤ place.element := by
    simp only [Place.Before] at h
    omega
  · -- the blocks before the last one are read whole
    have hread : (readThrough written place)[other.block]? = written[other.block]? := by
      rw [readThrough, List.getElem?_modify_ne _ _ (by omega),
        List.getElem?_take_of_lt (by omega)]
    rw [FaultAt, FaultAt, hread]
  · -- of the last block enough elements are read
    have hread : (readThrough written place)[other.block]? =
        written[other.block]?.map (·.cut (place.element + 1)) := by
      rw [hblock, readThrough, List.getElem?_modify_eq, List.getElem?_take_of_succ]
      rfl
    simp only [FaultAt, hread, Option.map_eq_some_iff]
    refine ⟨?_, ?_⟩
    · rintro ⟨_, ⟨block, hfound, rfl⟩, hfault⟩
      exact ⟨block, hfound, (WrittenBlock.fault_at_cut (by omega)).1 hfault⟩
    · rintro ⟨block, hfound, hfault⟩
      exact ⟨_, ⟨block, hfound, rfl⟩, (WrittenBlock.fault_at_cut (by omega)).2 hfault⟩

/-- The first fault of a pattern does not depend on what comes after it. -/
theorem first_fault_read_through :
    FirstFault (readThrough written place) loc place fault ↔
      FirstFault written loc place fault := by
  have hself : ¬ place.Before place := by
    simp only [Place.Before]
    omega
  have hearlier : ∀ earlier : Place, earlier.Before place → ¬ place.Before earlier := by
    intro earlier
    simp only [Place.Before]
    omega
  unfold FirstFault
  rw [fault_at_read_through hself]
  refine and_congr_right fun _ => ?_
  refine ⟨?_, ?_⟩
  · intro h earlier other hbefore hfault
    exact h earlier other hbefore ((fault_at_read_through (hearlier _ hbefore)).2 hfault)
  · intro h earlier other hbefore hfault
    exact h earlier other hbefore ((fault_at_read_through (hearlier _ hbefore)).1 hfault)

/-- Elaboration succeeds exactly if a pattern has no fault, and fails exactly with its first fault.
Patterns that read the same up to this fault fail alike. -/
theorem elaborate_reports_first_fault (written : Written) (loc : Location) :
    ((∃ pattern, elaborate written loc = .ok pattern) ↔
        ∀ place fault, ¬ FaultAt written loc place fault) ∧
      (∀ fault, elaborate written loc = .error fault ↔
        ∃ place, FirstFault written loc place fault) ∧
      ∀ place fault other, FirstFault written loc place fault →
        readThrough other place = readThrough written place →
        elaborate other loc = .error fault := by
  refine ⟨exists_elaborate_iff, fun fault => ⟨first_fault_of_elaborate, ?_⟩, ?_⟩
  · rintro ⟨place, h⟩
    exact elaborate_of_first_fault h
  · intro place fault other h hread
    have hother : FirstFault other loc place fault := by
      rw [← first_fault_read_through, hread, first_fault_read_through]
      exact h
    exact elaborate_of_first_fault hother

/-- The second value of a field is reported, at the place of its block. It does not matter that an
empty name and an empty block come after it. -/
theorem elaborate_reports_first_fault_conflict :
    let first : Element := ⟨.constraint ⟨"op", .eq, 1⟩, ⟨1, 4, 3⟩⟩
    let second : Element := ⟨.constraint ⟨"op", .eq, 2⟩, .unknown⟩
    let written : Written :=
      [{ elements := [first, second, ⟨.field "", ⟨1, 4, 9⟩⟩], loc := ⟨1, 4, 1⟩ }, {}]
    let other : Written := [{ elements := [first, second], loc := ⟨1, 4, 1⟩ }]
    let fault : Fault := ⟨.conflict, "op", ⟨1, 4, 1⟩⟩
    FirstFault written ⟨1, 3, 1⟩ ⟨0, 1⟩ fault ∧
      readThrough other ⟨0, 1⟩ = readThrough written ⟨0, 1⟩ ∧
      elaborate written ⟨1, 3, 1⟩ = .error fault ∧ elaborate other ⟨1, 3, 1⟩ = .error fault := by
  intro first second written other fault
  have hflaw : Flaw .all [first.term] second.term .conflict :=
    .conflict rfl List.mem_cons_self (by decide)
  have hfault : FaultAt written ⟨1, 3, 1⟩ ⟨0, 1⟩ fault :=
    ⟨_, rfl, @WrittenBlock.FaultAt.ofElement _ _ 1 second _ rfl hflaw⟩
  have hfirst : FirstFault written ⟨1, 3, 1⟩ ⟨0, 1⟩ fault := by
    refine ⟨hfault, ?_⟩
    rintro ⟨index, position⟩ found hbefore ⟨block, hblock, hfound⟩
    obtain ⟨rfl, rfl⟩ : index = 0 ∧ position = 0 := by
      simp only [Place.Before] at hbefore
      omega
    cases hblock
    cases hfound with
    | emptyBlock hempty => cases hempty
    | ofElement helement hnone =>
        cases helement
        cases hnone with
        | emptyName hname => exact absurd hname (by decide)
        | conflict _ hearlier => cases hearlier
  have hreports := elaborate_reports_first_fault written ⟨1, 3, 1⟩
  exact ⟨hfirst, rfl, (hreports.2.1 fault).2 ⟨_, hfirst⟩, hreports.2.2 _ _ other hfirst rfl⟩

end DecodeTables.Pattern
