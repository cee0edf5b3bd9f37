import Mathlib.Data.List.Basic
import DecodeTables.Proofs.Pattern.Terms

/-!
# What a sorted block lists

`sorted_eq` says what the three lists of a sorted block are: the constraints, the fields and the
tables of the block as written, each once and in order of first use. So a block whose lists are
`Distinct` is what comes out when its terms are written down in order and sorted,
`sorted_eq_of_terms_eq`. A pattern lists the tables of its blocks in the same way,
`sub_tables_eq_of_elaborate`.
-/

namespace DecodeTables.Pattern

namespace Block

/-- Says that none of the lists of a block has anything twice. -/
structure Distinct (block : Block) : Prop where
  constraints : block.constraints.Nodup
  fields : block.fields.Nodup
  sub_tables : block.subTables.Nodup

@[simp] theorem constraints_terms (block : Block) :
    block.terms.filterMap Term.constraint? = block.constraints := by
  simp [terms, List.filterMap_map, Function.comp_def, Term.constraint?, List.filterMap_none]

@[simp] theorem fields_terms (block : Block) :
    block.terms.filterMap Term.field? = block.fields := by
  simp [terms, List.filterMap_map, Function.comp_def, Term.field?, List.filterMap_none]

@[simp] theorem sub_tables_terms (block : Block) :
    block.terms.filterMap Term.subTable? = block.subTables := by
  simp [terms, List.filterMap_map, Function.comp_def, Term.subTable?, List.filterMap_none]

end Block

/-- A sorted block lists what the terms of the block ask for, each once and in order of first
use. -/
theorem sorted_eq (block : WrittenBlock) :
    block.sorted =
      { connective := block.connective
        constraints := firstUses (block.terms.filterMap Term.constraint?)
        fields := firstUses (block.terms.filterMap Term.field?)
        subTables := firstUses (block.terms.filterMap Term.subTable?) } := by
  rw [WrittenBlock.sorted, Block.insert_all_eq]
  simp only [WrittenBlock.terms, List.filterMap_map]
  rfl

theorem distinct_sorted (block : WrittenBlock) : block.sorted.Distinct := by
  rw [sorted_eq]
  exact ⟨nodup_first_uses _, nodup_first_uses _, nodup_first_uses _⟩

/-- A block whose terms are those of an elaborated one, in order and each once, is sorted into
it. -/
theorem sorted_eq_of_terms_eq {written : WrittenBlock} {block : Block} (hdistinct : block.Distinct)
    (hconnective : written.connective = block.connective) (hterms : written.terms = block.terms) :
    written.sorted = block := by
  rw [sorted_eq, hconnective, hterms, Block.constraints_terms, Block.fields_terms,
    Block.sub_tables_terms, first_uses_of_nodup hdistinct.constraints,
    first_uses_of_nodup hdistinct.fields, first_uses_of_nodup hdistinct.sub_tables]

/-- Taking in sorted blocks takes in the tables that each of them lists. -/
theorem sub_tables_append_all_eq (pattern : Pattern) (written : Written) :
    (pattern.appendAll written).subTables =
      ((written.map WrittenBlock.sorted).flatMap (·.subTables)).foldl addNew pattern.subTables := by
  induction written generalizing pattern with
  | nil => rfl
  | cons block written ih =>
      show ((pattern.append block.sorted).appendAll written).subTables = _
      rw [ih, append, List.map_cons, List.flatMap_cons, List.foldl_append]

/-- An elaborated pattern lists the tables of its blocks, each once and in order of first use. -/
theorem sub_tables_eq_of_elaborate {written : Written} {loc : Location} {pattern : Pattern}
    (h : elaborate written loc = .ok pattern) :
    pattern.subTables = firstUses (pattern.blocks.flatMap (·.subTables)) := by
  rw [blocks_elaborate h, elaborate_eq_ok h, sub_tables_append_all_eq]
  rfl

end DecodeTables.Pattern
