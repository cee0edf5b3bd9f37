import Mathlib.Data.List.Forall2
import DecodeTables.Proofs.Pattern.Terms

/-!
# What patterns mean

A `Valuation` says which constraints, fields and tables hold. A block then holds or does not, as
written and as elaborated: all of its terms have to hold, or one of them. `elaborate_keeps_meaning`
says that every block of an elaborated pattern holds exactly if the block as written does.
-/

namespace DecodeTables.Pattern

/-- Says which terms hold: which constraints, by field, comparison and value, and which fields and
tables, by name. -/
structure Valuation where
  constraint : Constraint → Prop
  field : String → Prop
  subTable : String → Prop

namespace Valuation

variable (valuation : Valuation)

/-- Says whether a term holds. -/
def Holds : Term → Prop
  | .constraint constraint => valuation.constraint constraint
  | .field name => valuation.field name
  | .subTable name => valuation.subTable name

/-- Says whether the elements of a block as written hold, joined as they are. -/
def HoldsWritten (block : WrittenBlock) : Prop :=
  match block.connective with
  | .all => ∀ element ∈ block.elements, valuation.Holds element.term
  | .any => ∃ element ∈ block.elements, valuation.Holds element.term

/-- Says whether the constraints, fields and tables of a block hold, joined as they are. -/
def HoldsBlock (block : Block) : Prop :=
  match block.connective with
  | .all =>
      (∀ constraint ∈ block.constraints, valuation.constraint constraint) ∧
        (∀ name ∈ block.fields, valuation.field name) ∧
        ∀ name ∈ block.subTables, valuation.subTable name
  | .any =>
      (∃ constraint ∈ block.constraints, valuation.constraint constraint) ∨
        (∃ name ∈ block.fields, valuation.field name) ∨
        ∃ name ∈ block.subTables, valuation.subTable name

variable {valuation}

/-- All terms of a block hold if those of each kind do. -/
theorem forall_terms_iff {block : Block} :
    (∀ term ∈ block.terms, valuation.Holds term) ↔
      (∀ constraint ∈ block.constraints, valuation.constraint constraint) ∧
        (∀ name ∈ block.fields, valuation.field name) ∧
        ∀ name ∈ block.subTables, valuation.subTable name := by
  simp only [Block.terms, List.forall_mem_append, List.forall_mem_map, and_assoc]
  rfl

/-- A term of a block holds if one of some kind does. -/
theorem exists_term_iff {block : Block} :
    (∃ term ∈ block.terms, valuation.Holds term) ↔
      (∃ constraint ∈ block.constraints, valuation.constraint constraint) ∨
        (∃ name ∈ block.fields, valuation.field name) ∨
        ∃ name ∈ block.subTables, valuation.subTable name := by
  simp only [Block.terms, List.mem_append, List.mem_map, or_and_right, exists_or,
    exists_exists_and_eq_and, or_assoc]
  rfl

/-- Sorting the terms of a block keeps what the block means. -/
theorem holds_sorted (block : WrittenBlock) :
    valuation.HoldsBlock block.sorted ↔ valuation.HoldsWritten block := by
  unfold HoldsBlock HoldsWritten
  rw [WrittenBlock.connective_sorted]
  cases block.connective with
  | all =>
      simp only [← forall_terms_iff, mem_terms_sorted, WrittenBlock.terms, List.forall_mem_map]
  | any =>
      simp only [← exists_term_iff, mem_terms_sorted, WrittenBlock.terms, List.mem_map,
        exists_exists_and_eq_and]

end Valuation

/-- Elaboration keeps the blocks of a pattern in order, each with its connective, and whichever
terms hold, a block that is elaborated holds exactly if it does as written. -/
theorem elaborate_keeps_meaning {written : Written} {loc : Location} {pattern : Pattern}
    (h : elaborate written loc = .ok pattern) :
    List.Forall₂
      (fun block source => block.connective = source.connective ∧
        ∀ valuation : Valuation, valuation.HoldsBlock block ↔ valuation.HoldsWritten source)
      pattern.blocks written := by
  rw [blocks_elaborate h, List.forall₂_map_left_iff, List.forall₂_same]
  intro block _
  exact ⟨block.connective_sorted, fun valuation => Valuation.holds_sorted block⟩

/-- A choice that names a constraint twice is a choice between its distinct terms. -/
theorem elaborate_keeps_meaning_choice :
    let source : WrittenBlock :=
      { connective := .any
        elements := [⟨.constraint ⟨"op", .eq, 1⟩, .unknown⟩, ⟨.field "mode", .unknown⟩,
          ⟨.constraint ⟨"op", .ne, 1⟩, .unknown⟩, ⟨.constraint ⟨"op", .eq, 1⟩, .unknown⟩] }
    let block : Block :=
      { connective := .any, constraints := [⟨"op", .eq, 1⟩, ⟨"op", .ne, 1⟩], fields := ["mode"] }
    elaborate [source] .unknown = .ok { blocks := [block] } ∧
      ∀ valuation : Valuation, valuation.HoldsBlock block ↔ valuation.HoldsWritten source := by
  intro source block
  have h : elaborate [source] .unknown = .ok { blocks := [block] } := rfl
  exact ⟨h, (List.forall₂_cons.1 (elaborate_keeps_meaning h)).1.2⟩

end DecodeTables.Pattern
