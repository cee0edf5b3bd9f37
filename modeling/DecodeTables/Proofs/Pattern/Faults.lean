import DecodeTables.Proofs.Pattern.Terms

/-!
# What is wrong with a block

What is wrong with a block is said here without elaborating it: `WrittenBlock.FaultAt` names the
fault that an element has, from the terms that stand before it in its block. A block is elaborated
exactly if it has no fault, `Block.not_fault_at_of_elaborate`, and otherwise is rejected for the
first that it has, `Block.first_fault_of_elaborate`. Both rest on the fact that what a block has
kept after some of its elements are these elements, sorted.
-/

namespace DecodeTables

section Fold

variable {ε α σ : Type _} {step : σ → α → Except ε σ} {items : List α} {start last : σ}

/-- A fold that fails has a first item that fails, with the items before it folded. -/
theorem exists_step_of_fold_error {fault : ε} (h : items.foldlM step start = .error fault) :
    ∃ index item state, items[index]? = some item ∧
      (items.take index).foldlM step start = .ok state ∧ step state item = .error fault := by
  induction items generalizing start with
  | nil => cases h
  | cons first items ih =>
      rw [List.foldlM_cons] at h
      cases hfirst : step start first with
      | error found =>
          rw [hfirst] at h
          exact ⟨0, first, start, rfl, rfl, hfirst.trans h⟩
      | ok next =>
          rw [hfirst] at h
          obtain ⟨index, item, state, hitem, hstate, hfault⟩ := ih h
          refine ⟨index + 1, item, state, hitem, ?_, hfault⟩
          rw [List.take_succ_cons, List.foldlM_cons, hfirst]
          exact hstate

/-- In a fold that does not fail, no item does. -/
theorem exists_step_of_fold_ok {index : Nat} {item : α} (h : items.foldlM step start = .ok last)
    (hitem : items[index]? = some item) :
    ∃ state next, (items.take index).foldlM step start = .ok state ∧
      step state item = .ok next := by
  induction items generalizing start index with
  | nil => cases hitem
  | cons first items ih =>
      rw [List.foldlM_cons] at h
      cases hfirst : step start first with
      | error found =>
          rw [hfirst] at h
          cases h
      | ok next =>
          rw [hfirst] at h
          cases index with
          | zero =>
              cases hitem
              exact ⟨start, next, rfl, hfirst⟩
          | succ index =>
              obtain ⟨state, following, hstate, hnext⟩ := ih h hitem
              refine ⟨state, following, ?_, hnext⟩
              rw [List.take_succ_cons, List.foldlM_cons, hfirst]
              exact hstate

/-- Before the place up to which a fold did not fail, no item fails. -/
theorem exists_step_of_take_ok {count index : Nat} {item : α}
    (h : (items.take count).foldlM step start = .ok last) (hindex : index < count)
    (hitem : items[index]? = some item) :
    ∃ state next, (items.take index).foldlM step start = .ok state ∧
      step state item = .ok next := by
  have htaken : (items.take count)[index]? = some item := by
    rw [List.getElem?_take_of_lt hindex, hitem]
  obtain ⟨state, next, hstate, hnext⟩ := exists_step_of_fold_ok h htaken
  rw [List.take_take, Nat.min_eq_left (Nat.le_of_lt hindex)] at hstate
  exact ⟨state, next, hstate, hnext⟩

end Fold

namespace Pattern

/-- `Flaw connective earlier term kind` says what is wrong with a term of a block that has the terms
`earlier` before it. -/
inductive Flaw (connective : Connective) (earlier : List Term) : Term → Fault.Kind → Prop where
  | emptyName {term} : term.name = "" → Flaw connective earlier term .emptyName
  | tableInAny {name} :
      connective = .any → name ≠ "" → Flaw connective earlier (.subTable name) .tableInAny
  | conflict {field value other} :
      connective = .all → .constraint ⟨field, .eq, other⟩ ∈ earlier → other ≠ value →
      Flaw connective earlier (.constraint ⟨field, .eq, value⟩) .conflict

/-- The first of `locs` that is known, and `outermost` if none of them is. -/
def firstKnown (locs : List Location) (outermost : Location) : Location :=
  (locs.find? Location.isKnown).getD outermost

/-- `block.FaultAt outer index fault` says that a block of a pattern at `outer` has the fault
`fault` at its element number `index`. A block without elements has its fault at number zero. -/
inductive WrittenBlock.FaultAt (block : WrittenBlock) (outer : Location) : Nat → Fault → Prop where
  | emptyBlock : block.elements = [] →
      FaultAt block outer 0 ⟨.emptyBlock, "", firstKnown [block.loc] outer⟩
  | ofElement {index element kind} : block.elements[index]? = some element →
      Flaw block.connective (block.terms.take index) element.term kind →
      FaultAt block outer index
        ⟨kind, element.term.name, firstKnown [element.loc, block.loc] outer⟩

theorem or_else_or_else (own block outer : Location) :
    own.orElse (block.orElse outer) = firstKnown [own, block] outer := by
  cases hown : own.isKnown <;> cases hblock : block.isKnown <;>
    simp [Location.orElse, firstKnown, hown, hblock]

theorem or_else_eq (own outer : Location) : own.orElse outer = firstKnown [own] outer := by
  cases hown : own.isKnown <;> simp [Location.orElse, firstKnown, hown]

/-- A term cannot have two flaws if the terms before it have names. -/
theorem Flaw.unique {connective : Connective} {earlier : List Term} {term : Term}
    {kind other : Fault.Kind} (h : Flaw connective earlier term kind)
    (hother : Flaw connective earlier term other) (hnames : ∀ term ∈ earlier, term.name ≠ "") :
    kind = other := by
  cases h with
  | emptyName hname =>
      cases hother with
      | emptyName => rfl
      | tableInAny _ hnamed => exact absurd hname hnamed
      | conflict _ hearlier => exact (hnames _ hearlier hname).elim
  | tableInAny _ hnamed =>
      cases hother with
      | emptyName hname => exact absurd hname hnamed
      | tableInAny => rfl
  | conflict _ hearlier =>
      cases hother with
      | emptyName hname => exact (hnames _ hearlier hname).elim
      | conflict => rfl

namespace Block

variable {block : Block} {term : Term}

/-- A constraint that fixes a field is contradicted by one that fixes it at another value. -/
theorem contradicts_iff {field : String} {value : UInt64} :
    block.contradicts ⟨field, .eq, value⟩ = true ↔
      ∃ other, .constraint ⟨field, .eq, other⟩ ∈ block.terms ∧ other ≠ value := by
  simp only [contradicts, List.any_eq_true, Bool.and_eq_true, constraint_mem_terms, bne_iff_ne]
  refine ⟨?_, ?_⟩
  · rintro ⟨⟨kept, comparison, other⟩, hkept, ⟨hequality, hfield⟩, hvalue⟩
    cases eq_of_beq hequality
    cases eq_of_beq hfield
    exact ⟨other, hkept, hvalue⟩
  · rintro ⟨other, hkept, hvalue⟩
    exact ⟨_, hkept, ⟨rfl, beq_self_eq_true field⟩, hvalue⟩

/-- What is found wrong with a term, where the terms before it were kept, is wrong with it. -/
theorem flaw_of_fault_kind {written : WrittenBlock} {kind : Fault.Kind}
    (h : written.sorted.faultKind? term = some kind) :
    Flaw written.connective written.terms term kind := by
  unfold faultKind? at h
  split at h
  · next hname =>
      cases h
      exact .emptyName hname
  · next hname =>
      cases term with
      | field name => cases h
      | subTable name =>
          obtain ⟨hany, hkind⟩ := Option.ite_none_right_eq_some.1 h
          cases hkind
          exact .tableInAny (by simpa using hany) hname
      | constraint constraint =>
          obtain ⟨⟨hall, hequality, hcontradicts⟩, hkind⟩ := Option.ite_none_right_eq_some.1 h
          obtain ⟨field, comparison, value⟩ := constraint
          cases hkind
          cases eq_of_beq hequality
          obtain ⟨other, hkept, hvalue⟩ := contradicts_iff.1 hcontradicts
          exact .conflict (by simpa using hall) (mem_terms_sorted.1 hkept) hvalue

/-- What is wrong with a term is found where the terms before it were kept. -/
theorem fault_kind_of_flaw {written : WrittenBlock} {kind : Fault.Kind}
    (h : Flaw written.connective written.terms term kind) :
    written.sorted.faultKind? term ≠ none := by
  unfold faultKind?
  split
  · exact Option.some_ne_none _
  · next hname =>
      cases h with
      | emptyName hempty => exact absurd hempty hname
      | tableInAny hany => simp [hany]
      | conflict hall hearlier hvalue =>
          have hcontradicts := contradicts_iff.2 ⟨_, mem_terms_sorted.2 hearlier, hvalue⟩
          simp [hall, Constraint.isEquality, hcontradicts]

end Block

/-- A block with its first `count` elements only. -/
def WrittenBlock.cut (block : WrittenBlock) (count : Nat) : WrittenBlock :=
  { block with elements := block.elements.take count }

namespace WrittenBlock

variable {block : WrittenBlock} {outer : Location} {index : Nat} {fault : Fault}

theorem terms_cut (block : WrittenBlock) (count : Nat) :
    (block.cut count).terms = block.terms.take count :=
  List.map_take

/-- In a block that has elements, faults are at elements. -/
theorem FaultAt.exists_element (h : block.FaultAt outer index fault) (hsome : block.elements ≠ []) :
    ∃ element, block.elements[index]? = some element := by
  cases h with
  | emptyBlock hempty => exact absurd hempty hsome
  | ofElement helement => exact ⟨_, helement⟩

/-- There is one fault at the first place of a block that has any. -/
theorem FaultAt.unique {other : Fault} (h : block.FaultAt outer index fault)
    (hother : block.FaultAt outer index other)
    (hfirst : ∀ earlier < index, ∀ fault, ¬ block.FaultAt outer earlier fault) : fault = other := by
  cases h with
  | emptyBlock hempty =>
      cases hother with
      | emptyBlock => rfl
      | ofElement helement => simp [hempty] at helement
  | ofElement helement hflaw =>
      cases hother with
      | emptyBlock hempty => simp [hempty] at helement
      | ofElement hfound hother =>
          cases helement.symm.trans hfound
          -- a term without a name would be a fault before this one
          have hnames : ∀ term ∈ block.terms.take index, term.name ≠ "" := by
            intro term hterm hname
            obtain ⟨position, hposition⟩ := List.mem_iff_getElem?.1 hterm
            rw [List.getElem?_take, Option.ite_none_right_eq_some, terms, List.getElem?_map,
              Option.map_eq_some_iff] at hposition
            obtain ⟨hlt, earlier, hearlier, rfl⟩ := hposition
            exact hfirst position hlt _ (.ofElement hearlier (.emptyName hname))
          rw [hflaw.unique hother hnames]

/-- What is wrong at the first elements of a block does not depend on those after them. -/
theorem fault_at_cut {count : Nat} (hindex : index < count) :
    (block.cut count).FaultAt outer index fault ↔ block.FaultAt outer index fault := by
  have helement : (block.cut count).elements[index]? = block.elements[index]? :=
    List.getElem?_take_of_lt hindex
  have hterms : (block.cut count).terms.take index = block.terms.take index := by
    rw [terms_cut, List.take_take, Nat.min_eq_left (Nat.le_of_lt hindex)]
  refine ⟨?_, ?_⟩
  · rintro (hempty | ⟨hfound, hflaw⟩)
    · have hcount : count ≠ 0 := by omega
      exact .emptyBlock ((List.take_eq_nil_iff.1 hempty).resolve_left hcount)
    · exact .ofElement (helement ▸ hfound) (hterms ▸ hflaw)
  · rintro (hempty | ⟨hfound, hflaw⟩)
    · exact .emptyBlock (List.take_eq_nil_of_eq_nil hempty)
    · exact .ofElement (helement.trans hfound) (by rw [hterms]; exact hflaw)

end WrittenBlock

namespace Block

variable {outer : Location} {written : WrittenBlock} {index : Nat} {element : Element}

/-- A fault that is found with an element, where those before it were kept, is there. -/
theorem fault_at_of_add {fault : Fault} (helement : written.elements[index]? = some element)
    (h : (written.cut index).sorted.add (written.loc.orElse outer) element = .error fault) :
    written.FaultAt outer index fault := by
  rw [add] at h
  split at h
  · next kind hkind =>
      cases h
      rw [or_else_or_else]
      refine .ofElement helement ?_
      rw [← WrittenBlock.terms_cut]
      exact flaw_of_fault_kind hkind
  · cases h

/-- Where no fault is found with an element there is none. -/
theorem not_fault_at_of_add {next : Block} (helement : written.elements[index]? = some element)
    (h : (written.cut index).sorted.add (written.loc.orElse outer) element = .ok next)
    (fault : Fault) : ¬ written.FaultAt outer index fault := by
  intro hfault
  cases hfault with
  | emptyBlock hempty => simp [hempty] at helement
  | ofElement hfound hflaw =>
      cases helement.symm.trans hfound
      rw [← WrittenBlock.terms_cut] at hflaw
      have hkind : (written.cut index).sorted.faultKind? element.term ≠ none :=
        fault_kind_of_flaw hflaw
      rw [add] at h
      split at h
      · cases h
      · next hnone => exact hkind hnone

/-- A block that is elaborated has no faults. -/
theorem not_fault_at_of_elaborate {block : Block} (h : elaborate outer written = .ok block)
    (index : Nat) (fault : Fault) : ¬ written.FaultAt outer index fault := by
  intro hfault
  rw [elaborate] at h
  split at h
  · cases h
  · next hsome =>
      obtain ⟨element, helement⟩ := hfault.exists_element hsome
      obtain ⟨state, next, hstate, hnext⟩ := exists_step_of_fold_ok h helement
      rw [fold_add_eq_ok hstate] at hnext
      exact not_fault_at_of_add helement hnext fault hfault

/-- A block that is not elaborated is rejected for its first fault. -/
theorem first_fault_of_elaborate {fault : Fault} (h : elaborate outer written = .error fault) :
    ∃ index, written.FaultAt outer index fault ∧
      ∀ earlier < index, ∀ other, ¬ written.FaultAt outer earlier other := by
  rw [elaborate] at h
  split at h
  · next hempty =>
      cases h
      rw [or_else_eq]
      exact ⟨0, .emptyBlock hempty, fun earlier hearlier => absurd hearlier earlier.not_lt_zero⟩
  · next hsome =>
      obtain ⟨index, element, state, helement, hstate, hadd⟩ := exists_step_of_fold_error h
      rw [fold_add_eq_ok hstate] at hadd
      refine ⟨index, fault_at_of_add helement hadd, ?_⟩
      intro earlier hearlier other hother
      obtain ⟨found, hfound⟩ := hother.exists_element hsome
      obtain ⟨before, next, hbefore, hnext⟩ := exists_step_of_take_ok hstate hearlier hfound
      rw [fold_add_eq_ok hbefore] at hnext
      exact not_fault_at_of_add hfound hnext other hother

end Block

end Pattern

end DecodeTables
