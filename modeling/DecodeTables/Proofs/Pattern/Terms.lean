import DecodeTables.Proofs.Pattern.SubTables

/-!
# The terms of elaborated blocks

A block as written lists its terms in the order of its elements. An elaborated block has them in
three lists, by what they ask for, and `Block.terms` puts these together again. Elaboration turns
every block into one of its own, `blocks_elaborate`, which has the terms of the block as written and
no others, `mem_terms_sorted`.
-/

namespace DecodeTables.Pattern

/-- The terms of the elements of a block, in order. -/
def WrittenBlock.terms (block : WrittenBlock) : List Term :=
  block.elements.map Element.term

/-- A block with all its terms sorted by what they ask for, whether or not they have faults. -/
def WrittenBlock.sorted (block : WrittenBlock) : Block :=
  Block.insertAll { connective := block.connective } block.elements

namespace Block

variable {block : Block} {term other : Term} {elements : List Element}

/-- All the terms that a block has kept. -/
def terms (block : Block) : List Term :=
  block.constraints.map .constraint ++ block.fields.map .field ++ block.subTables.map .subTable

@[simp] theorem constraint_mem_terms {constraint : Constraint} :
    Term.constraint constraint ∈ block.terms ↔ constraint ∈ block.constraints := by
  simp [terms]

@[simp] theorem field_mem_terms {name : String} :
    Term.field name ∈ block.terms ↔ name ∈ block.fields := by
  simp [terms]

@[simp] theorem sub_table_mem_terms {name : String} :
    Term.subTable name ∈ block.terms ↔ name ∈ block.subTables := by
  simp [terms]

/-- Inserting a term keeps the terms that were there, and adds no term but this one. -/
theorem mem_terms_insert :
    other ∈ (block.insert term).terms ↔ other ∈ block.terms ∨ other = term := by
  cases term <;> cases other <;> simp [insert, mem_add_new]

theorem mem_terms_insert_all :
    other ∈ (block.insertAll elements).terms ↔
      other ∈ block.terms ∨ other ∈ elements.map Element.term := by
  induction elements generalizing block with
  | nil => simp [insertAll]
  | cons element elements ih =>
      show other ∈ ((block.insert element.term).insertAll elements).terms ↔ _
      rw [ih, mem_terms_insert, List.map_cons, List.mem_cons, or_assoc]

end Block

@[simp] theorem WrittenBlock.connective_sorted (block : WrittenBlock) :
    block.sorted.connective = block.connective := by
  rw [sorted, Block.insert_all_eq]

/-- Sorting the terms of a block keeps them all and invents none. -/
theorem mem_terms_sorted {block : WrittenBlock} {term : Term} :
    term ∈ block.sorted.terms ↔ term ∈ block.terms := by
  rw [WrittenBlock.sorted, Block.mem_terms_insert_all]
  simp [Block.terms, WrittenBlock.terms]

theorem blocks_append_all (pattern : Pattern) (written : Written) :
    (pattern.appendAll written).blocks = pattern.blocks ++ written.map WrittenBlock.sorted := by
  induction written generalizing pattern with
  | nil => exact (List.append_nil _).symm
  | cons block written ih =>
      show ((pattern.append block.sorted).appendAll written).blocks = _
      rw [ih, append, List.append_assoc, List.map_cons, List.singleton_append]

/-- The blocks of an elaborated pattern are those of the pattern as written, each of them sorted. -/
theorem blocks_elaborate {written : Written} {loc : Location} {pattern : Pattern}
    (h : elaborate written loc = .ok pattern) :
    pattern.blocks = written.map WrittenBlock.sorted := by
  rw [elaborate_eq_ok h, blocks_append_all]
  rfl

end DecodeTables.Pattern
