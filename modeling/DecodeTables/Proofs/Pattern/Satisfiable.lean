import DecodeTables.Proofs.Pattern.FirstFault

/-!
# When the equalities of a pattern can hold

A block of which all elements must hold may require fields to equal values. The fields can have such
values if no field is required to equal two of them, `satisfiable_iff`. `elaborate_iff_satisfiable`
says that this is what elaboration decides of a pattern with which nothing else is wrong, and that
it otherwise names a field that is required to equal two values.
-/

namespace DecodeTables.Pattern

namespace WrittenBlock

/-- Says that one of the constraints of a block is that `field` equals `value`. -/
def Requires (block : WrittenBlock) (field : String) (value : UInt64) : Prop :=
  .constraint ⟨field, .eq, value⟩ ∈ block.terms

instance (block : WrittenBlock) (field : String) (value : UInt64) :
    Decidable (block.Requires field value) :=
  inferInstanceAs (Decidable (_ ∈ _))

/-- Says that fields can have values that meet every equality of a block at once. -/
def Satisfiable (block : WrittenBlock) : Prop :=
  ∃ assigned : String → UInt64, ∀ field value, block.Requires field value → assigned field = value

/-- What it means that nothing can be wrong with a block but its equalities. -/
structure Tidy (block : WrittenBlock) : Prop where
  has_elements : block.elements ≠ []
  named : ∀ term ∈ block.terms, term.name ≠ ""
  no_tables_in_any : block.connective = .any → ∀ name, .subTable name ∉ block.terms

variable {block : WrittenBlock} {outer : Location}

/-- The equalities of a block can be met if no field has to equal two values. -/
theorem satisfiable_iff :
    block.Satisfiable ↔
      ∀ field first second, block.Requires field first → block.Requires field second →
        first = second := by
  refine ⟨?_, ?_⟩
  · rintro ⟨assigned, h⟩ field first second hfirst hsecond
    exact (h field first hfirst).symm.trans (h field second hsecond)
  · intro h
    -- a field gets the value that it has to equal, if there is one
    refine ⟨fun field => Classical.epsilon (block.Requires field), ?_⟩
    intro field value hvalue
    exact h field _ value (Classical.epsilon_spec ⟨value, hvalue⟩) hvalue

/-- An equality that is no fault agrees with those before it. -/
theorem eq_of_no_fault {field : String} {first second : UInt64} {earlier later : Nat}
    (hall : block.connective = .all)
    (hnone : ∀ fault, ¬ block.FaultAt outer later fault)
    (hfirst : block.terms[earlier]? = some (.constraint ⟨field, .eq, first⟩))
    (hsecond : block.terms[later]? = some (.constraint ⟨field, .eq, second⟩))
    (hlt : earlier < later) : first = second := by
  refine Decidable.byContradiction fun hne => ?_
  rw [terms, List.getElem?_map, Option.map_eq_some_iff] at hsecond
  obtain ⟨element, helement, hterm⟩ := hsecond
  have hearlier : .constraint ⟨field, .eq, first⟩ ∈ block.terms.take later := by
    refine List.mem_iff_getElem?.2 ⟨earlier, ?_⟩
    rw [List.getElem?_take_of_lt hlt, hfirst]
  have hflaw : Flaw block.connective (block.terms.take later) element.term .conflict := by
    rw [hterm]
    exact .conflict hall hearlier hne
  exact hnone _ (.ofElement helement hflaw)

/-- A block without faults, all of whose elements must hold, has satisfiable equalities. -/
theorem satisfiable_of_no_fault (hall : block.connective = .all)
    (hnone : ∀ index fault, ¬ block.FaultAt outer index fault) : block.Satisfiable := by
  rw [satisfiable_iff]
  intro field first second hfirst hsecond
  obtain ⟨i, hi⟩ := List.mem_iff_getElem?.1 hfirst
  obtain ⟨j, hj⟩ := List.mem_iff_getElem?.1 hsecond
  -- if the values were different, the later of the two equalities would be a fault
  rcases Nat.lt_trichotomy i j with hlt | rfl | hlt
  · exact eq_of_no_fault hall (hnone j) hi hj hlt
  · cases hi.symm.trans hj
    rfl
  · exact (eq_of_no_fault hall (hnone i) hj hi hlt).symm

/-- A fault of a tidy block is that a field has to equal two values. -/
theorem Tidy.conflict_of_fault_at (htidy : block.Tidy) {index : Nat} {fault : Fault}
    (h : block.FaultAt outer index fault) :
    fault.kind = .conflict ∧ block.connective = .all ∧
      ∃ first second, first ≠ second ∧ block.Requires fault.subject first ∧
        block.Requires fault.subject second := by
  cases h with
  | emptyBlock hempty => exact absurd hempty htidy.has_elements
  | @ofElement _ element kind helement hflaw =>
      have hterm : element.term ∈ block.terms :=
        List.mem_map.2 ⟨element, List.mem_of_getElem? helement, rfl⟩
      generalize element.term = term at hflaw hterm ⊢
      cases hflaw with
      | emptyName hname => exact absurd hname (htidy.named _ hterm)
      | tableInAny hany => exact absurd hterm (htidy.no_tables_in_any hany _)
      | conflict hall hearlier hne =>
          exact ⟨rfl, hall, _, _, hne, List.mem_of_mem_take hearlier, hterm⟩

end WrittenBlock

/-- Says that an elaborated block requires `field` to equal `value`. -/
def Block.Requires (block : Block) (field : String) (value : UInt64) : Prop :=
  ⟨field, .eq, value⟩ ∈ block.constraints

/-- A sorted block requires what the block requires as written. -/
theorem requires_sorted {block : WrittenBlock} {field : String} {value : UInt64} :
    block.sorted.Requires field value ↔ block.Requires field value := by
  rw [Block.Requires, ← Block.constraint_mem_terms, mem_terms_sorted]
  rfl

variable {written : Written} {loc : Location}

/-- The blocks of an elaborated pattern all of whose elements must hold have satisfiable
equalities. -/
theorem satisfiable_of_elaborate {pattern : Pattern} {block : WrittenBlock}
    (h : elaborate written loc = .ok pattern) (hblock : block ∈ written)
    (hall : block.connective = .all) : block.Satisfiable := by
  obtain ⟨index, hindex⟩ := List.mem_iff_getElem?.1 hblock
  have hnone : ∀ element fault, ¬ block.FaultAt loc element fault := by
    intro element fault hfault
    have hplace : FaultAt written loc ⟨index, element⟩ fault := ⟨block, hindex, hfault⟩
    exact not_fault_at_of_elaborate h hplace
  exact WrittenBlock.satisfiable_of_no_fault hall hnone

/-- A pattern with nothing wrong but its equalities is elaborated exactly if the equalities of each
block whose elements must all hold can be met by some values of the fields. In what is elaborated no
such block requires a field to equal two values, and a rejection names a field of which one does. -/
theorem elaborate_iff_satisfiable (written : Written) (loc : Location)
    (htidy : ∀ block ∈ written, block.Tidy) :
    ((∃ pattern, elaborate written loc = .ok pattern) ↔
        ∀ block ∈ written, block.connective = .all → block.Satisfiable) ∧
      (∀ pattern, elaborate written loc = .ok pattern →
        ∀ block ∈ pattern.blocks, block.connective = .all →
          ∀ field first second, block.Requires field first → block.Requires field second →
            first = second) ∧
      ∀ fault, elaborate written loc = .error fault →
        fault.kind = .conflict ∧ ∃ block ∈ written, block.connective = .all ∧
          ∃ first second, first ≠ second ∧ block.Requires fault.subject first ∧
            block.Requires fault.subject second := by
  refine ⟨⟨?_, ?_⟩, ?_, ?_⟩
  · rintro ⟨pattern, h⟩ block hblock hall
    exact satisfiable_of_elaborate h hblock hall
  · intro hsatisfiable
    rw [exists_elaborate_iff]
    rintro place fault ⟨block, hfound, hfault⟩
    have hblock := List.mem_of_getElem? hfound
    obtain ⟨-, hall, first, second, hne, hfirst, hsecond⟩ :=
      (htidy block hblock).conflict_of_fault_at hfault
    have hvalues := WrittenBlock.satisfiable_iff.1 (hsatisfiable block hblock hall)
    exact hne (hvalues _ first second hfirst hsecond)
  · intro pattern h block hblock hall field first second hfirst hsecond
    rw [blocks_elaborate h] at hblock
    obtain ⟨source, hsource, rfl⟩ := List.mem_map.1 hblock
    rw [WrittenBlock.connective_sorted] at hall
    rw [requires_sorted] at hfirst hsecond
    have hvalues := WrittenBlock.satisfiable_iff.1 (satisfiable_of_elaborate h hsource hall)
    exact hvalues field first second hfirst hsecond
  · intro fault h
    obtain ⟨place, ⟨block, hfound, hfault⟩, -⟩ := first_fault_of_elaborate h
    have hblock := List.mem_of_getElem? hfound
    obtain ⟨hkind, hall, hvalues⟩ := (htidy block hblock).conflict_of_fault_at hfault
    exact ⟨hkind, block, hblock, hall, hvalues⟩

/-- Two values of one field are a choice in a block of which one element must hold, and cannot be
met in a block of which all must. -/
theorem elaborate_iff_satisfiable_two_values :
    let elements : List Element :=
      [⟨.constraint ⟨"op", .eq, 1⟩, .unknown⟩, ⟨.constraint ⟨"op", .eq, 2⟩, .unknown⟩]
    let choice : WrittenBlock := { connective := .any, elements := elements }
    let both : WrittenBlock := { connective := .all, elements := elements }
    (∀ block ∈ [choice, both], block.Tidy) ∧
      (∃ pattern, elaborate [choice] .unknown = .ok pattern) ∧
      ¬ ∃ pattern, elaborate [choice, both] .unknown = .ok pattern := by
  intro elements choice both
  have hnamed : ∀ term ∈ elements.map Element.term, term.name ≠ "" := by decide
  have htables : ∀ name, .subTable name ∉ elements.map Element.term := by simp [elements]
  have hchoice : choice.Tidy := ⟨List.cons_ne_nil _ _, hnamed, fun _ => htables⟩
  have hboth : both.Tidy := ⟨List.cons_ne_nil _ _, hnamed, fun _ => htables⟩
  have htidy : ∀ block ∈ [choice, both], block.Tidy := by
    simp [hchoice, hboth]
  refine ⟨htidy, ?_, ?_⟩
  · refine (elaborate_iff_satisfiable [choice] .unknown ?_).1.2 ?_
    · simp [hchoice]
    · intro block hblock hall
      cases List.mem_singleton.1 hblock
      cases hall
  · intro h
    have hsatisfiable : both.Satisfiable :=
      (elaborate_iff_satisfiable [choice, both] .unknown htidy).1.1 h both (by simp) rfl
    have hvalue : (1 : UInt64) = 2 :=
      WrittenBlock.satisfiable_iff.1 hsatisfiable "op" 1 2 (by decide) (by decide)
    exact absurd hvalue (by decide)

end DecodeTables.Pattern
