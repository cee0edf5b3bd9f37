import Mathlib.Algebra.BigOperators.Fin
import DecodeTables.Proofs.Pattern.Acceptance

/-!
# Patterns written in another order

A `Rearrangement` of a pattern puts its blocks and the elements of each block in another order, and
may repeat elements in their own block. The two patterns may be rejected for different faults, but
`elaborate_rearranged` says that they are accepted together, and that what is kept of them differs
in order only.
-/

namespace DecodeTables.Pattern

/-- `block.Rearranged other` says that `other` joins the terms of `block` in the same way, in any
order, and may repeat some of them. -/
structure WrittenBlock.Rearranged (block other : WrittenBlock) : Prop where
  connective_eq : other.connective = block.connective
  terms_perm : ∃ repeated, repeated ⊆ block.terms ∧ other.terms.Perm (block.terms ++ repeated)

/-- A rearrangement of `written` into `other` moves every block to a position of its own and
rearranges its terms there. -/
structure Rearrangement (written other : Written) where
  position : Fin written.length ≃ Fin other.length
  rearranged : ∀ index : Fin written.length, written[index].Rearranged other[position index]

/-- `block.SameMembers other` says that two elaborated blocks join the same constraints, fields and
tables in the same way. -/
structure Block.SameMembers (block other : Block) : Prop where
  connective_eq : block.connective = other.connective
  mem_constraints_iff : ∀ constraint,
    constraint ∈ block.constraints ↔ constraint ∈ other.constraints
  mem_fields_iff : ∀ name, name ∈ block.fields ↔ name ∈ other.fields
  mem_sub_tables_iff : ∀ name, name ∈ block.subTables ↔ name ∈ other.subTables

variable {written other : Written} {loc : Location} {pattern : Pattern}

namespace WrittenBlock

variable {block again : WrittenBlock}

/-- Rearranging a block changes none of its terms. -/
theorem Rearranged.same_terms (h : block.Rearranged again) : block.SameTerms again where
  connective_eq := h.connective_eq.symm
  mem_terms_iff term := by
    obtain ⟨repeated, hrepeated, hperm⟩ := h.terms_perm
    rw [hperm.mem_iff, List.mem_append]
    exact ⟨Or.inl, fun hterm => hterm.elim id (fun h => hrepeated h)⟩

/-- Blocks with the same terms are sorted into blocks with the same members. -/
theorem SameTerms.sorted (h : block.SameTerms again) : block.sorted.SameMembers again.sorted := by
  have hterms : ∀ term, term ∈ block.sorted.terms ↔ term ∈ again.sorted.terms := by
    intro term
    rw [mem_terms_sorted, mem_terms_sorted, h.mem_terms_iff]
  refine ⟨?_, ?_, ?_, ?_⟩
  · rw [connective_sorted, connective_sorted, h.connective_eq]
  · intro constraint
    rw [← Block.constraint_mem_terms, hterms, Block.constraint_mem_terms]
  · intro name
    rw [← Block.field_mem_terms, hterms, Block.field_mem_terms]
  · intro name
    rw [← Block.sub_table_mem_terms, hterms, Block.sub_table_mem_terms]

/-- Blocks with the same terms keep the same number of constraints. -/
theorem SameTerms.length_constraints (h : block.SameTerms again) :
    block.sorted.constraints.length = again.sorted.constraints.length := by
  -- repeated constraints do not count, since none is kept twice
  have hperm : block.sorted.constraints.Perm again.sorted.constraints :=
    (List.perm_ext_iff_of_nodup (distinct_sorted block).constraints
      (distinct_sorted again).constraints).2 h.sorted.mem_constraints_iff
  exact hperm.length_eq

end WrittenBlock

namespace Rearrangement

variable (rearrangement : Rearrangement written other)

theorem same_terms (index : Fin written.length) :
    written[index].SameTerms other[rearrangement.position index] :=
  (rearrangement.rearranged index).same_terms

include rearrangement

/-- A block has the same terms as the block that it is moved to. -/
theorem exists_target {block : WrittenBlock} (hblock : block ∈ written) :
    ∃ target ∈ other, block.SameTerms target := by
  obtain ⟨index, rfl⟩ := List.mem_iff_get.1 hblock
  exact ⟨_, List.get_mem _ _, rearrangement.same_terms index⟩

/-- Every block of the rearranged pattern has the same terms as one that was moved there. -/
theorem exists_origin {block : WrittenBlock} (hblock : block ∈ other) :
    ∃ origin ∈ written, origin.SameTerms block := by
  obtain ⟨index, rfl⟩ := List.mem_iff_get.1 hblock
  obtain ⟨origin, rfl⟩ := rearrangement.position.surjective index
  exact ⟨_, List.get_mem _ _, rearrangement.same_terms origin⟩

/-- A rearranged pattern is accepted exactly if the pattern is. -/
theorem acceptable_iff :
    (∀ block ∈ written, block.Acceptable) ↔ ∀ block ∈ other, block.Acceptable := by
  refine ⟨?_, ?_⟩
  · intro h block hblock
    obtain ⟨origin, horigin, hsame⟩ := rearrangement.exists_origin hblock
    exact (h origin horigin).of_same_terms hsame
  · intro h block hblock
    obtain ⟨target, htarget, hsame⟩ := rearrangement.exists_target hblock
    exact (h target htarget).of_same_terms hsame.symm

/-- A table is asked for in a rearranged pattern exactly if it is asked for in the pattern. -/
theorem exists_sub_table_iff (name : String) :
    (∃ block ∈ written, .subTable name ∈ block.terms) ↔
      ∃ block ∈ other, .subTable name ∈ block.terms := by
  refine ⟨?_, ?_⟩
  · rintro ⟨block, hblock, hname⟩
    obtain ⟨target, htarget, hsame⟩ := rearrangement.exists_target hblock
    exact ⟨target, htarget, (hsame.mem_terms_iff _).1 hname⟩
  · rintro ⟨block, hblock, hname⟩
    obtain ⟨origin, horigin, hsame⟩ := rearrangement.exists_origin hblock
    exact ⟨origin, horigin, (hsame.mem_terms_iff _).2 hname⟩

/-- A rearranged pattern has as many distinct constraints in its blocks. -/
theorem sum_length_constraints :
    (written.map (·.sorted.constraints.length)).sum =
      (other.map (·.sorted.constraints.length)).sum := by
  rw [← Fin.sum_univ_fun_getElem, ← Fin.sum_univ_fun_getElem]
  refine Fintype.sum_equiv rearrangement.position _ _ fun index => ?_
  exact (rearrangement.same_terms index).length_constraints

end Rearrangement

/-- An elaborated pattern continues with the tables that some block asks for. -/
theorem mem_sub_tables_iff_exists (h : elaborate written loc = .ok pattern) {name : String} :
    name ∈ pattern.subTables ↔ ∃ block ∈ written, .subTable name ∈ block.terms := by
  rw [sub_tables_eq_of_elaborate h, mem_first_uses, blocks_elaborate h]
  simp only [List.mem_flatMap, List.mem_map, exists_exists_and_eq_and,
    ← Block.sub_table_mem_terms, mem_terms_sorted]

/-- The number of constraints of a pattern is the sum over its blocks of the distinct ones. -/
theorem constraint_count_elaborate (h : elaborate written loc = .ok pattern) :
    pattern.constraintCount = (written.map (·.sorted.constraints.length)).sum := by
  rw [constraintCount, blocks_elaborate h, List.length_flatMap, List.map_map]
  rfl

/-- A pattern and a rearrangement of it are accepted together, wherever they stand. If they are,
each block has the same constraints, fields and tables as the block that it is moved to, and the
patterns have the same tables and the same number of constraints. -/
theorem elaborate_rearranged (rearrangement : Rearrangement written other)
    (loc place : Location) :
    ((∃ pattern, elaborate written loc = .ok pattern) ↔
        ∃ pattern, elaborate other place = .ok pattern) ∧
      ∀ pattern found, elaborate written loc = .ok pattern → elaborate other place = .ok found →
        pattern.blocks.length = written.length ∧ found.blocks.length = other.length ∧
          (∀ index : Fin written.length, ∃ block target,
            pattern.blocks[index.val]? = some block ∧
              found.blocks[(rearrangement.position index).val]? = some target ∧
              block.SameMembers target) ∧
          (∀ name, name ∈ pattern.subTables ↔ name ∈ found.subTables) ∧
          pattern.constraintCount = found.constraintCount := by
  refine ⟨?_, ?_⟩
  · rw [exists_elaborate_iff_acceptable, exists_elaborate_iff_acceptable,
      rearrangement.acceptable_iff]
  · intro pattern found h hfound
    refine ⟨?_, ?_, ?_, ?_, ?_⟩
    · rw [blocks_elaborate h, List.length_map]
    · rw [blocks_elaborate hfound, List.length_map]
    · intro index
      refine ⟨written[index].sorted, other[rearrangement.position index].sorted, ?_, ?_,
        (rearrangement.same_terms index).sorted⟩
      · rw [blocks_elaborate h, List.getElem?_map, List.getElem?_eq_getElem index.isLt]
        rfl
      · rw [blocks_elaborate hfound, List.getElem?_map,
          List.getElem?_eq_getElem (rearrangement.position index).isLt]
        rfl
    · intro name
      rw [mem_sub_tables_iff_exists h, rearrangement.exists_sub_table_iff,
        ← mem_sub_tables_iff_exists hfound]
    · rw [constraint_count_elaborate h, rearrangement.sum_length_constraints,
        ← constraint_count_elaborate hfound]

/-- Two blocks that change places, with terms in another order and some of them twice. -/
theorem elaborate_rearranged_two_blocks :
    let code : Term := .constraint ⟨"op", .eq, 1⟩
    let either : List Term := [.constraint ⟨"x", .ne, 0⟩, .field "y"]
    let written : Written :=
      [{ elements := [⟨code, .unknown⟩, ⟨.subTable "reg", .unknown⟩] },
        { connective := .any, elements := either.map ({ term := · }) }]
    let other : Written :=
      [{ connective := .any
         elements := (.field "y" :: either).map ({ term := · }) },
        { elements := [⟨.subTable "reg", ⟨1, 2, 3⟩⟩, ⟨code, .unknown⟩, ⟨code, .unknown⟩] }]
    let pattern : Pattern :=
      { blocks :=
          [{ connective := .all, constraints := [⟨"op", .eq, 1⟩], subTables := ["reg"] },
            { connective := .any, constraints := [⟨"x", .ne, 0⟩], fields := ["y"] }]
        subTables := ["reg"] }
    elaborate written .unknown = .ok pattern ∧
      ∃ found, elaborate other .unknown = .ok found ∧
        (∃ target, found.blocks[1]? = some target ∧
          ∀ constraint, constraint ∈ target.constraints ↔ constraint = ⟨"op", .eq, 1⟩) ∧
        found.constraintCount = 2 := by
  intro code either written other pattern
  have hfirst : written[0].Rearranged other[1] :=
    ⟨rfl, [code], by decide, by decide⟩
  have hsecond : written[1].Rearranged other[0] :=
    ⟨rfl, [.field "y"], by decide, by decide⟩
  let rearrangement : Rearrangement written other :=
    { position := Equiv.swap (0 : Fin 2) 1
      rearranged := Fin.forall_fin_two.2 ⟨hfirst, hsecond⟩ }
  have helaborate : elaborate written .unknown = .ok pattern := rfl
  have h := elaborate_rearranged rearrangement .unknown .unknown
  obtain ⟨found, hfound⟩ := h.1.1 ⟨pattern, helaborate⟩
  obtain ⟨-, -, hblocks, -, hcount⟩ := h.2 pattern found helaborate hfound
  obtain ⟨block, target, hblock, htarget, hsame⟩ := hblocks (0 : Fin 2)
  cases hblock
  refine ⟨helaborate, found, hfound, ⟨target, htarget, ?_⟩, hcount.symm⟩
  intro constraint
  rw [← hsame.mem_constraints_iff, List.mem_singleton]

end DecodeTables.Pattern
