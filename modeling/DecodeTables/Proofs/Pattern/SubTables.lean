import DecodeTables.Pattern

/-!
# The tables that a pattern continues with

A pattern that has no fault is built by taking in every term of every block, `elaborate_eq_ok`. So
the tables that it continues with are those that it mentions as written, in order of first use:
`sub_tables_elaborate`.
-/

namespace DecodeTables.Pattern

/-- The table that a term asks for. -/
def Term.subTable? : Term → Option String
  | subTable name => some name
  | _ => none

/-- The field that a term asks for. -/
def Term.field? : Term → Option String
  | field name => some name
  | _ => none

/-- The constraint that a term asks for. -/
def Term.constraint? : Term → Option Constraint
  | constraint comparison => some comparison
  | _ => none

/-- The tables that a pattern as written mentions. -/
def mentions (written : Written) : List String :=
  (written.flatMap (·.elements)).filterMap (·.term.subTable?)

namespace Block

/-- Takes terms into a block, in order. -/
def insertAll (block : Block) (elements : List Element) : Block :=
  elements.foldl (fun block element => block.insert element.term) block

/-- Elements that are taken in without a fault are all inserted. -/
theorem fold_add_eq_ok {outer : Location} {block last : Block} {elements : List Element}
    (h : elements.foldlM (add outer) block = .ok last) : last = block.insertAll elements := by
  induction elements generalizing block with
  | nil => exact (Except.ok.inj h).symm
  | cons element elements ih =>
      rw [List.foldlM_cons] at h
      cases hadd : block.add outer element with
      | error fault =>
          rw [hadd] at h
          cases h
      | ok next =>
          rw [hadd] at h
          have hnext : next = block.insert element.term := by
            rw [add] at hadd
            split at hadd
            · cases hadd
            · exact (Except.ok.inj hadd).symm
          rw [ih h, hnext]
          rfl

/-- A block that is elaborated has all its terms inserted. -/
theorem elaborate_eq_ok {outer : Location} {written : WrittenBlock} {block : Block}
    (h : elaborate outer written = .ok block) :
    block = insertAll { connective := written.connective } written.elements := by
  rw [elaborate] at h
  split at h
  · cases h
  · exact fold_add_eq_ok h

/-- Taking terms in adds what they ask for and the block lacks, each to the list of its kind. -/
theorem insert_all_eq (block : Block) (elements : List Element) :
    block.insertAll elements =
      { connective := block.connective
        constraints := (elements.filterMap (·.term.constraint?)).foldl addNew block.constraints
        fields := (elements.filterMap (·.term.field?)).foldl addNew block.fields
        subTables := (elements.filterMap (·.term.subTable?)).foldl addNew block.subTables } := by
  induction elements generalizing block with
  | nil => rfl
  | cons element elements ih =>
      show (block.insert element.term).insertAll elements = _
      rw [ih]
      simp only [List.filterMap_cons]
      cases element.term <;> rfl

end Block

/-- The pattern that takes in blocks as they are written, whether or not they have faults. -/
def appendAll (pattern : Pattern) (written : Written) : Pattern :=
  written.foldl
    (fun pattern block =>
      pattern.append (Block.insertAll { connective := block.connective } block.elements))
    pattern

/-- Blocks that are elaborated without a fault are all appended. -/
theorem fold_append_eq_ok {loc : Location} {pattern last : Pattern} {written : Written}
    (h : written.foldlM (fun pattern block => pattern.append <$> Block.elaborate loc block)
      pattern = .ok last) : last = pattern.appendAll written := by
  induction written generalizing pattern with
  | nil => exact (Except.ok.inj h).symm
  | cons block written ih =>
      rw [List.foldlM_cons] at h
      cases hblock : Block.elaborate loc block with
      | error fault =>
          rw [hblock] at h
          cases h
      | ok next =>
          rw [hblock] at h
          rw [ih h, Block.elaborate_eq_ok hblock]
          rfl

/-- A pattern that is elaborated has all its terms in it. -/
theorem elaborate_eq_ok {written : Written} {loc : Location} {pattern : Pattern}
    (h : elaborate written loc = .ok pattern) : pattern = appendAll {} written :=
  fold_append_eq_ok h

theorem sub_tables_append_all (pattern : Pattern) (written : Written) :
    (pattern.appendAll written).subTables = (mentions written).foldl addNew pattern.subTables := by
  induction written generalizing pattern with
  | nil => rfl
  | cons block written ih =>
      show ((pattern.append (Block.insertAll { connective := block.connective }
        block.elements)).appendAll written).subTables = _
      -- what a block kept once is taken in as if it were written out
      rw [ih, append, Block.insert_all_eq, foldl_add_new_foldl, mentions, mentions,
        List.flatMap_cons, List.filterMap_append, List.foldl_append]
      rfl

/-- An elaborated pattern continues with the tables that it mentions as written, each once and in
order of first use. -/
theorem sub_tables_elaborate {written : Written} {loc : Location} {pattern : Pattern}
    (h : elaborate written loc = .ok pattern) :
    pattern.subTables = firstUses (mentions written) := by
  rw [elaborate_eq_ok h, sub_tables_append_all]
  rfl

theorem mem_sub_tables_elaborate {written : Written} {loc : Location} {pattern : Pattern}
    (h : elaborate written loc = .ok pattern) {name : String} :
    name ∈ pattern.subTables ↔ name ∈ mentions written := by
  rw [sub_tables_elaborate h, mem_first_uses]

end DecodeTables.Pattern
