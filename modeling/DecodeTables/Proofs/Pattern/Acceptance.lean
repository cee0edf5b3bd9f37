import DecodeTables.Proofs.Pattern.Satisfiable
import DecodeTables.Proofs.Pattern.Sorted

/-!
# Which patterns are accepted

A pattern is accepted exactly if each of its blocks is `Acceptable`:
`exists_elaborate_iff_acceptable`. That depends on how a block joins its terms and on which terms
it has, and neither on their order nor on how often they are written, so that blocks with the
`SameTerms` are accepted together.
-/

namespace DecodeTables.Pattern

namespace WrittenBlock

/-- What it takes for a block to be accepted: nothing can be wrong with it but its equalities, and
if all of its elements must hold, the equalities can be met. -/
structure Acceptable (block : WrittenBlock) : Prop extends Tidy block where
  satisfiable : block.connective = .all → block.Satisfiable

/-- `block.SameTerms other` says that two blocks join the same terms in the same way. It does not
matter in which order and how often the terms are written. -/
structure SameTerms (block other : WrittenBlock) : Prop where
  connective_eq : block.connective = other.connective
  mem_terms_iff : ∀ term, term ∈ block.terms ↔ term ∈ other.terms

variable {block other : WrittenBlock} {outer : Location}

theorem SameTerms.symm (h : block.SameTerms other) : other.SameTerms block where
  connective_eq := h.connective_eq.symm
  mem_terms_iff term := (h.mem_terms_iff term).symm

/-- Blocks that are sorted into one block have the same terms. -/
theorem same_terms_of_sorted_eq (h : block.sorted = other.sorted) : block.SameTerms other where
  connective_eq := by rw [← connective_sorted block, h, connective_sorted]
  mem_terms_iff term := by rw [← mem_terms_sorted, h, mem_terms_sorted]

/-- A block has elements exactly if it has a term. -/
theorem elements_ne_nil_iff : block.elements ≠ [] ↔ ∃ term, term ∈ block.terms := by
  refine ⟨?_, ?_⟩
  · intro hsome
    obtain ⟨element, helement⟩ := List.exists_mem_of_ne_nil _ hsome
    exact ⟨element.term, List.mem_map_of_mem helement⟩
  · rintro ⟨term, hterm⟩
    obtain ⟨element, helement, -⟩ := List.mem_map.1 hterm
    exact List.ne_nil_of_mem helement

/-- A block that has the same terms as an acceptable one is acceptable. -/
theorem Acceptable.of_same_terms (hblock : block.Acceptable) (h : block.SameTerms other) :
    other.Acceptable where
  has_elements := by
    obtain ⟨term, hterm⟩ := elements_ne_nil_iff.1 hblock.has_elements
    exact elements_ne_nil_iff.2 ⟨term, (h.mem_terms_iff term).1 hterm⟩
  named term hterm := hblock.named term ((h.mem_terms_iff term).2 hterm)
  no_tables_in_any hany name hname :=
    hblock.no_tables_in_any (h.connective_eq.trans hany) name ((h.mem_terms_iff _).2 hname)
  satisfiable hall := by
    obtain ⟨assigned, hassigned⟩ := hblock.satisfiable (h.connective_eq.trans hall)
    refine ⟨assigned, fun field value hvalue => hassigned field value ?_⟩
    exact (h.mem_terms_iff _).2 hvalue

/-- A flaw that a term has wherever it stands in a block is a fault of the block. -/
theorem exists_fault_at_of_flaw {term : Term} {kind : Fault.Kind} (hterm : term ∈ block.terms)
    (hflaw : ∀ earlier, Flaw block.connective earlier term kind) :
    ∃ index fault, block.FaultAt outer index fault := by
  obtain ⟨element, helement, rfl⟩ := List.mem_map.1 hterm
  obtain ⟨index, hindex⟩ := List.mem_iff_getElem?.1 helement
  exact ⟨index, _, .ofElement hindex (hflaw _)⟩

/-- A block without faults is acceptable. -/
theorem acceptable_of_no_fault (hnone : ∀ index fault, ¬ block.FaultAt outer index fault) :
    block.Acceptable := by
  have hflawless : ∀ term ∈ block.terms, ∀ kind,
      ¬ ∀ earlier, Flaw block.connective earlier term kind := by
    intro term hterm kind hflaw
    obtain ⟨index, fault, hfault⟩ := exists_fault_at_of_flaw hterm hflaw
    exact hnone index fault hfault
  have hnamed : ∀ term ∈ block.terms, term.name ≠ "" := by
    intro term hterm hname
    exact hflawless term hterm .emptyName fun _ => .emptyName hname
  -- equalities that clash are a fault at the later one of them only, unlike the other flaws
  refine ⟨⟨?_, hnamed, ?_⟩, fun hall => satisfiable_of_no_fault hall hnone⟩
  · intro hempty
    exact hnone 0 _ (.emptyBlock hempty)
  · intro hany name hname
    exact hflawless _ hname .tableInAny fun _ => .tableInAny hany (hnamed _ hname)

/-- An acceptable block has no faults. -/
theorem Acceptable.not_fault_at (hblock : block.Acceptable) (index : Nat) (fault : Fault) :
    ¬ block.FaultAt outer index fault := by
  intro hfault
  obtain ⟨-, hall, first, second, hne, hfirst, hsecond⟩ :=
    hblock.toTidy.conflict_of_fault_at hfault
  exact hne (satisfiable_iff.1 (hblock.satisfiable hall) _ first second hfirst hsecond)

end WrittenBlock

variable {written again : Written} {loc place : Location} {pattern : Pattern}

/-- A pattern is elaborated exactly if each of its blocks is acceptable. -/
theorem exists_elaborate_iff_acceptable :
    (∃ pattern, elaborate written loc = .ok pattern) ↔ ∀ block ∈ written, block.Acceptable := by
  rw [exists_elaborate_iff]
  refine ⟨?_, ?_⟩
  · intro hnone block hblock
    obtain ⟨index, hindex⟩ := List.mem_iff_getElem?.1 hblock
    have hfaultless : ∀ element fault, ¬ block.FaultAt loc element fault := by
      intro element fault hfault
      exact hnone ⟨index, element⟩ fault ⟨block, hindex, hfault⟩
    exact WrittenBlock.acceptable_of_no_fault hfaultless
  · rintro hacceptable place fault ⟨block, hfound, hfault⟩
    exact (hacceptable block (List.mem_of_getElem? hfound)).not_fault_at _ _ hfault

/-- A pattern whose blocks are sorted into those of an elaborated pattern is elaborated into it. -/
theorem elaborate_of_sorted_eq (h : elaborate written loc = .ok pattern)
    (hsorted : again.map WrittenBlock.sorted = pattern.blocks) (place : Location) :
    elaborate again place = .ok pattern := by
  rw [blocks_elaborate h] at hsorted
  have hacceptable := exists_elaborate_iff_acceptable.1 ⟨pattern, h⟩
  have hagain : ∀ block ∈ again, block.Acceptable := by
    intro block hblock
    -- some block of the elaborated pattern is sorted into the same, so it has the same terms
    have hmem : block.sorted ∈ written.map WrittenBlock.sorted :=
      hsorted ▸ List.mem_map_of_mem hblock
    obtain ⟨source, hsource, hsame⟩ := List.mem_map.1 hmem
    exact (hacceptable source hsource).of_same_terms (WrittenBlock.same_terms_of_sorted_eq hsame)
  obtain ⟨found, hfound⟩ := exists_elaborate_iff_acceptable.2 hagain
  have hblocks : found.blocks = pattern.blocks := by
    rw [blocks_elaborate hfound, hsorted, blocks_elaborate h]
  have htables : found.subTables = pattern.subTables := by
    rw [sub_tables_eq_of_elaborate hfound, hblocks, ← sub_tables_eq_of_elaborate h]
  obtain ⟨blocks, subTables⟩ := found
  cases hblocks
  cases htables
  exact hfound

end DecodeTables.Pattern
