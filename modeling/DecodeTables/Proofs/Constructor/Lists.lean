import Mathlib.Data.List.Forall2
import DecodeTables.Constructor
import DecodeTables.Proofs.Display.Operands
import DecodeTables.Proofs.FirstUse
import DecodeTables.Proofs.Pattern.Rearrangement

/-!
# What the parts of a constructor list

The parts of a constructor list what their source names: the terms of a block, the tables of a
pattern, the operands of a display, the names that disassembly actions assign, the operands that
statements build. `parts_list_first_uses` says that each of these lists is the list of first uses of
what is written, while actions and statements are kept as often as they are written.
-/

namespace DecodeTables

namespace Pattern

/-- The constraints of a block, without regard to their order and to how often they are written. -/
def WrittenBlock.constraintSet (block : WrittenBlock) : Finset Constraint :=
  (block.terms.filterMap Term.constraint?).toFinset

/-- `written.ListedIn block` says that `block` joins its terms as `written` does, and lists what
these ask for: each kind of term by itself, in order of first use. -/
structure WrittenBlock.ListedIn (written : WrittenBlock) (block : Block) : Prop where
  connective_eq : block.connective = written.connective
  constraints : ListsFirstUses (written.terms.filterMap Term.constraint?) block.constraints
  fields : ListsFirstUses (written.terms.filterMap Term.field?) block.fields
  sub_tables : ListsFirstUses (written.terms.filterMap Term.subTable?) block.subTables

theorem WrittenBlock.listed_in_sorted (block : WrittenBlock) : block.ListedIn block.sorted := by
  rw [sorted_eq]
  exact ⟨rfl, lists_first_uses _, lists_first_uses _, lists_first_uses _⟩

variable {written : Written} {loc : Location} {pattern : Pattern}

/-- An elaborated pattern has a block for each block as written, which lists what this asks for. -/
theorem listed_in_blocks (h : elaborate written loc = .ok pattern) :
    List.Forall₂ WrittenBlock.ListedIn written pattern.blocks := by
  rw [blocks_elaborate h, List.forall₂_map_right_iff, List.forall₂_same]
  intro block _
  exact block.listed_in_sorted

/-- The constraints of a pattern are counted without those that are repeated in their block. -/
theorem constraint_count_eq_card (h : elaborate written loc = .ok pattern) :
    pattern.constraintCount = (written.map (·.constraintSet.card)).sum := by
  rw [constraint_count_elaborate h]
  refine congrArg List.sum (List.map_congr_left fun block _ => ?_)
  exact block.listed_in_sorted.constraints.length_eq

end Pattern

namespace Disassembly

/-- `written.KeptAs action` says that `action` does what `written` does, to the same target and for
the same context variable. -/
structure WrittenAction.KeptAs (written : WrittenAction) (action : Action) : Prop where
  kind_eq : action.kind = written.kind
  target_eq : action.target = written.target
  context_eq : action.contextVar = written.contextVar

theorem kept_as_actions (written : Written) :
    List.Forall₂ WrittenAction.KeptAs written (elaborate written).actions := by
  rw [elaborate, List.forall₂_map_right_iff, List.forall₂_same]
  intro action _
  exact ⟨rfl, rfl, rfl⟩

/-- The assigned names are the targets of the actions that assign, whatever they assign. -/
theorem assigned_elaborate (written : Written) :
    (elaborate written).assigned =
      firstUses ((written.filter (·.kind = .assign)).map (·.target)) := by
  rw [← List.filterMap_eq_map', List.filterMap_filter, assigned, elaborate, List.filterMap_map]
  refine congrArg firstUses (List.filterMap_congr fun action _ => ?_)
  by_cases hkind : action.kind = .assign <;> simp [Action.assigned?, Action.elaborate, hkind]

end Disassembly

/-- What is built are the targets of the statements that build. -/
theorem Execution.builds_elaborate (written : Execution.Written) :
    (elaborate written).builds =
      firstUses ((written.statements.filter (·.kind = .build)).map (·.target)) := by
  rw [← List.filterMap_eq_map', List.filterMap_filter, builds, elaborate]
  refine congrArg firstUses (List.filterMap_congr fun statement _ => ?_)
  simp [Statement.built?]

namespace Constructor

/-- Each list of the parts of a constructor has no duplicates, has the members of its source, and
has them in the order in which they first occur there. In an elaborated pattern there is a block for
each block as written, with lists of its constraints, its fields and its tables. The tables of the
pattern are those of all terms as written, and those that its blocks list one after another; its
constraints are counted once in each block. The operands of a display, the assigned names and what
is built are listed likewise. Every action is kept with its kind and its target, and every statement
as it is. -/
theorem parts_list_first_uses (pattern : Pattern.Written) (loc : Location)
    (display : Display.Written) (disassembly : Disassembly.Written)
    (execution : Execution.Written) :
    (∀ elaborated, Pattern.elaborate pattern loc = .ok elaborated →
      List.Forall₂ Pattern.WrittenBlock.ListedIn pattern elaborated.blocks ∧
        ListsFirstUses (Pattern.mentions pattern) elaborated.subTables ∧
        ListsFirstUses (elaborated.blocks.flatMap (·.subTables)) elaborated.subTables ∧
        elaborated.constraintCount = (pattern.map (·.constraintSet.card)).sum) ∧
      ListsFirstUses (display.filterMap Display.Piece.operand?)
        (Display.elaborate display).operands ∧
      ListsFirstUses ((disassembly.filter (·.kind = .assign)).map (·.target))
        (Disassembly.elaborate disassembly).assigned ∧
      List.Forall₂ Disassembly.WrittenAction.KeptAs disassembly
        (Disassembly.elaborate disassembly).actions ∧
      ListsFirstUses ((execution.statements.filter (·.kind = .build)).map (·.target))
        (Execution.elaborate execution).builds ∧
      (Execution.elaborate execution).statements = execution.statements := by
  refine ⟨?_, ?_, ?_, Disassembly.kept_as_actions disassembly, ?_, rfl⟩
  · intro elaborated h
    exact ⟨Pattern.listed_in_blocks h, lists_first_uses_iff.2 (Pattern.sub_tables_elaborate h),
      lists_first_uses_iff.2 (Pattern.sub_tables_eq_of_elaborate h),
      Pattern.constraint_count_eq_card h⟩
  · exact lists_first_uses_iff.2 (Display.operands_elaborate display)
  · exact lists_first_uses_iff.2 (Disassembly.assigned_elaborate disassembly)
  · exact lists_first_uses_iff.2 (Execution.builds_elaborate execution)

/-- A constraint that is written twice counts once in its block, and once more in another block. Two
constraints that differ in their sign only are two constraints, and a table of both blocks is listed
where the first one has it. -/
theorem parts_list_first_uses_reg_mem :
    let first : Pattern.WrittenBlock := { elements := [
      ⟨.constraint ⟨"op", .eq, 1⟩, .unknown⟩, ⟨.subTable "reg", .unknown⟩,
      ⟨.constraint ⟨"op", .eq, 1⟩, .unknown⟩, ⟨.constraint ⟨"op", .le, 1⟩, .unknown⟩] }
    let second : Pattern.WrittenBlock := { elements := [
      ⟨.subTable "mem", .unknown⟩, ⟨.subTable "reg", .unknown⟩,
      ⟨.constraint ⟨"op", .eq, 1⟩, .unknown⟩] }
    ∃ elaborated, Pattern.elaborate [first, second] .unknown = .ok elaborated ∧
      List.Forall₂ Pattern.WrittenBlock.ListedIn [first, second] elaborated.blocks ∧
      ListsFirstUses ["reg", "mem", "reg"] elaborated.subTables ∧
      elaborated.constraintCount = 3 := by
  intro first second
  obtain ⟨hblocks, htables, -, hcount⟩ :=
    (parts_list_first_uses [first, second] .unknown [] [] {}).1 _ rfl
  refine ⟨_, rfl, hblocks, htables, ?_⟩
  rw [hcount]
  decide

end Constructor

end DecodeTables
