import Mathlib.Data.List.Forall2
import DecodeTables.Proofs.Pattern.Acceptance

/-!
# Elaborating an elaborated pattern

What elaboration keeps of a pattern can be written down as a pattern again, `spelling`. It lists
each term once and sorted, and `elaborate_idempotent` says that elaborating it has no fault and
changes nothing, whatever places its blocks and elements are given.
-/

namespace DecodeTables.Pattern

/-- A block as written that joins, in the same way, the constraints, then the fields, then the
tables of an elaborated block. -/
def Block.spelling (block : Block) : WrittenBlock where
  connective := block.connective
  elements := block.terms.map ({ term := · })

/-- An elaborated pattern written down block by block. -/
def spelling (pattern : Pattern) : Written :=
  pattern.blocks.map Block.spelling

/-- `Spells source pattern` says that `source` is an elaborated pattern written down block by block,
each block with its connective and, as its elements, its constraints, then its fields, then its
tables. The places may be any. -/
def Spells (source : Written) (pattern : Pattern) : Prop :=
  List.Forall₂
    (fun spelled block => spelled.connective = block.connective ∧ spelled.terms = block.terms)
    source pattern.blocks

theorem terms_spelling (block : Block) : block.spelling.terms = block.terms := by
  simp [WrittenBlock.terms, Block.spelling, Function.comp_def]

theorem spells_spelling (pattern : Pattern) : Spells pattern.spelling pattern := by
  rw [Spells, spelling, List.forall₂_map_left_iff, List.forall₂_same]
  intro block _
  exact ⟨rfl, terms_spelling block⟩

variable {written : Written} {loc : Location} {pattern : Pattern}

/-- A pattern that spells an elaborated one is sorted into its blocks. -/
theorem sorted_of_spells {source : Written} (h : elaborate written loc = .ok pattern)
    (hspells : Spells source pattern) : source.map WrittenBlock.sorted = pattern.blocks := by
  rw [Spells, blocks_elaborate h, List.forall₂_map_right_iff] at hspells
  have hsame : List.Forall₂ (fun spelled block => spelled.sorted = block.sorted) source written :=
    hspells.imp fun _ block hspelled =>
      sorted_eq_of_terms_eq (distinct_sorted block) hspelled.1 hspelled.2
  rw [blocks_elaborate h, ← List.forall₂_eq_eq_eq, List.forall₂_map_left_iff,
    List.forall₂_map_right_iff]
  exact hsame

/-- An elaborated pattern that is written down and elaborated again stays as it is. It does not
matter where it is elaborated, and which places the blocks and elements have that it is written
with. -/
theorem elaborate_idempotent (h : elaborate written loc = .ok pattern) :
    (∀ place, elaborate pattern.spelling place = .ok pattern) ∧
      ∀ source place, Spells source pattern → elaborate source place = .ok pattern := by
  have hspells : ∀ source place, Spells source pattern → elaborate source place = .ok pattern := by
    intro source place hspells
    exact elaborate_of_sorted_eq h (sorted_of_spells h hspells) place
  exact ⟨fun place => hspells _ place (spells_spelling pattern), hspells⟩

/-- Terms that are written twice and out of order are listed once and sorted, and stay so. The
tables of both blocks stay in the order of their first use. -/
theorem elaborate_idempotent_reg_mem :
    let written : Written :=
      [{ elements := [⟨.subTable "reg", ⟨1, 2, 5⟩⟩, ⟨.field "mode", .unknown⟩,
          ⟨.constraint ⟨"op", .eq, 1⟩, .unknown⟩, ⟨.subTable "reg", .unknown⟩] },
        { elements := [⟨.subTable "mem", .unknown⟩, ⟨.subTable "reg", .unknown⟩] }]
    let pattern : Pattern :=
      { blocks :=
          [{ connective := .all, constraints := [⟨"op", .eq, 1⟩], fields := ["mode"],
             subTables := ["reg"] },
            { connective := .all, subTables := ["mem", "reg"] }]
        subTables := ["reg", "mem"] }
    let source : Written :=
      [{ elements := [⟨.constraint ⟨"op", .eq, 1⟩, ⟨2, 1, 1⟩⟩, ⟨.field "mode", ⟨2, 1, 8⟩⟩,
          ⟨.subTable "reg", ⟨2, 1, 14⟩⟩] },
        { elements := [⟨.subTable "mem", ⟨2, 2, 1⟩⟩, ⟨.subTable "reg", ⟨2, 2, 5⟩⟩] }]
    elaborate written ⟨1, 2, 3⟩ = .ok pattern ∧ Spells source pattern ∧
      elaborate pattern.spelling .unknown = .ok pattern ∧
      elaborate source .unknown = .ok pattern := by
  intro written pattern source
  have h : elaborate written ⟨1, 2, 3⟩ = .ok pattern := rfl
  have hspells : Spells source pattern := .cons ⟨rfl, rfl⟩ (.cons ⟨rfl, rfl⟩ .nil)
  have hidempotent := elaborate_idempotent h
  exact ⟨h, hspells, hidempotent.1 .unknown, hidempotent.2 source .unknown hspells⟩

end DecodeTables.Pattern
