import Mathlib.Data.Set.Function
import DecodeTables.Proofs.Disassembly.StackBalance

/-!
# Expressions rebuilt from their programs

A program that runs on a stack of values also runs on a stack of expressions: a number or an
identifier pushes itself, and an operator puts the two expressions on top together. `rebuild` reads
off the one expression that is left in the end. `lowering_bijective` says that this undoes
`Expr.program`, which is a bijection between the expressions that are complete and the programs that
are balanced.
-/

namespace DecodeTables.Disassembly

/-- Says whether an expression was given, and every operator in it with both operands. -/
def Expr.isComplete : Expr → Bool
  | missing => false
  | number _ => true
  | ident _ => true
  | binary _ left right => left.isComplete && right.isComplete

/-- The meaning of items among values that are not told apart. -/
def counting : Meaning Unit where
  number _ := ()
  ident _ := ()
  apply _ _ _ := ()

/-- What it means for a program to be balanced by itself: each of its operators finds two values,
and one value is left. `balanced_iff_run` says that it does not matter which values these are. -/
structure IsBalanced (program : List Item) : Prop where
  operator_fed : ∀ before operator after, program = before ++ .operator operator :: after →
    ∃ found, counting.run before [] = some found ∧ 2 ≤ found.length
  one_left : ∃ value, counting.run program [] = some [value]

/-- The meaning of items among expressions: each of them means itself. -/
def trees : Meaning Expr where
  number := .number
  ident := .ident
  apply := .binary

/-- The expression that a program leaves alone on a stack of expressions. -/
def rebuild (program : List Item) : Option Expr :=
  match trees.run program [] with
  | some [expr] => some expr
  | _ => none

namespace Meaning

variable {α β : Type _} (meaning : Meaning α) (second : Meaning β)

/-- Whether an item fails, and how many values it leaves, does not depend on what items mean. -/
theorem next_length_eq {stack : List α} {other : List β} (item : Item)
    (h : stack.length = other.length) :
    (meaning.next stack item).map List.length = (second.next other item).map List.length := by
  cases item with
  | number value => simp [next, h]
  | ident name => simp [next, h]
  | operator operator =>
      match stack, other, h with
      | [], [], _ => rfl
      | [_], [_], _ => rfl
      | _ :: _ :: _, _ :: _ :: _, h => simpa [next] using h

/-- Whether a program fails, and how many values it leaves, does not depend on what items mean. -/
theorem run_length_eq {stack : List α} {other : List β} (program : List Item)
    (h : stack.length = other.length) :
    (meaning.run program stack).map List.length = (second.run program other).map List.length := by
  induction program generalizing stack other with
  | nil => simp [h]
  | cons item items ih =>
      have hitem := meaning.next_length_eq second item h
      rw [run_cons, run_cons]
      cases hstack : meaning.next stack item with
      | none =>
          rw [hstack, Option.map_none, eq_comm, Option.map_eq_none_iff] at hitem
          rw [hitem]
          rfl
      | some following =>
          rw [hstack, Option.map_some, eq_comm, Option.map_eq_some_iff] at hitem
          obtain ⟨_, hother, hlength⟩ := hitem
          rw [hother]
          exact ih hlength.symm

/-- A program leaves one value if the stack that it leaves has length one. -/
theorem exists_run_iff {program : List Item} :
    (∃ value, meaning.run program [] = some [value]) ↔
      (meaning.run program []).map List.length = some 1 := by
  simp only [Option.map_eq_some_iff, List.length_eq_one_iff]
  exact ⟨fun ⟨value, h⟩ => ⟨_, h, value, rfl⟩, fun ⟨_, h, value, hvalue⟩ => ⟨value, hvalue ▸ h⟩⟩

/-- A program is balanced exactly if it leaves one value, whatever its items mean. -/
theorem balanced_iff_run (program : List Item) :
    IsBalanced program ↔ ∃ value, meaning.run program [] = some [value] := by
  have hlength : (meaning.run program []).map List.length =
      (counting.run program []).map List.length := meaning.run_length_eq counting program rfl
  rw [exists_run_iff, hlength, ← exists_run_iff]
  refine ⟨IsBalanced.one_left, fun hleft => ⟨?_, hleft⟩⟩
  intro before operator after hsplit
  obtain ⟨value, hrun⟩ := hleft
  rw [hsplit] at hrun
  exact counting.operator_finds_two hrun

end Meaning

namespace Expr

theorem given_of_complete {expr : Expr} (h : expr.isComplete = true) : expr.isGiven = true := by
  cases expr with
  | missing => cases h
  | number | ident | binary => rfl

/-- The program of an operator whose operands are complete ends with the operator. -/
theorem program_of_complete (operator : Operator) {left right : Expr}
    (hleft : left.isComplete = true) (hright : right.isComplete = true) :
    (binary operator left right).program =
      left.program ++ right.program ++ [.operator operator] := by
  rw [program, given_of_complete hleft, given_of_complete hright]
  rfl

/-- Run on expressions, the program of a complete expression pushes this expression. -/
theorem run_program_trees {expr : Expr} (h : expr.isComplete = true) (stack : List Expr) :
    trees.run expr.program stack = some (expr :: stack) := by
  induction expr generalizing stack with
  | missing => cases h
  | number | ident => rfl
  | binary operator left right ihl ihr =>
      rw [isComplete, Bool.and_eq_true] at h
      rw [program_of_complete operator h.1 h.2, Meaning.run_append, Meaning.run_append, ihl h.1,
        Option.bind_some, ihr h.2]
      rfl

end Expr

/-- The programs of the expressions on a stack, the lowest of them first. -/
def writtenOut (stack : List Expr) : List Item :=
  stack.reverse.flatMap Expr.program

theorem written_out_cons (expr : Expr) (stack : List Expr) :
    writtenOut (expr :: stack) = writtenOut stack ++ expr.program := by
  simp [writtenOut]

/-- What an item does to a stack of complete expressions: they stay complete, and their programs get
longer by the item. -/
theorem next_trees {item : Item} {stack following : List Expr}
    (hstack : ∀ expr ∈ stack, expr.isComplete = true)
    (hnext : trees.next stack item = some following) :
    (∀ expr ∈ following, expr.isComplete = true) ∧
      writtenOut following = writtenOut stack ++ [item] := by
  cases item with
  | number value =>
      cases hnext
      exact ⟨List.forall_mem_cons.2 ⟨rfl, hstack⟩, written_out_cons _ _⟩
  | ident name =>
      cases hnext
      exact ⟨List.forall_mem_cons.2 ⟨rfl, hstack⟩, written_out_cons _ _⟩
  | operator operator =>
      match stack, hnext with
      | right :: left :: rest, hnext =>
          cases hnext
          obtain ⟨hright, hleft, hrest⟩ :
              right.isComplete = true ∧ left.isComplete = true ∧
                ∀ expr ∈ rest, expr.isComplete = true := by
            simpa using hstack
          refine ⟨List.forall_mem_cons.2 ⟨?_, hrest⟩, ?_⟩
          · show (left.isComplete && right.isComplete) = true
            rw [hleft, hright]
            rfl
          · show writtenOut (Expr.binary operator left right :: rest) = _
            simp only [written_out_cons, Expr.program_of_complete operator hleft hright,
              List.append_assoc]

/-- A stack of expressions that a program left has this program written out on it. -/
theorem run_trees {program : List Item} {stack last : List Expr}
    (hstack : ∀ expr ∈ stack, expr.isComplete = true)
    (hrun : trees.run program stack = some last) :
    (∀ expr ∈ last, expr.isComplete = true) ∧
      writtenOut last = writtenOut stack ++ program := by
  induction program generalizing stack with
  | nil =>
      cases hrun
      exact ⟨hstack, (List.append_nil _).symm⟩
  | cons item items ih =>
      rw [Meaning.run_cons, Option.bind_eq_some_iff] at hrun
      obtain ⟨following, hnext, hrest⟩ := hrun
      obtain ⟨hfollowing, hitem⟩ := next_trees hstack hnext
      obtain ⟨hlast, hitems⟩ := ih hfollowing hrest
      refine ⟨hlast, ?_⟩
      rw [hitems, hitem, List.append_assoc, List.singleton_append]

theorem rebuild_eq_some {program : List Item} {expr : Expr} :
    rebuild program = some expr ↔ trees.run program [] = some [expr] := by
  rw [rebuild]
  split <;> simp_all

/-- A program is rebuilt to the complete expression of which it is the program. -/
theorem rebuild_eq_some_iff {program : List Item} {expr : Expr} :
    rebuild program = some expr ↔ expr.isComplete = true ∧ expr.program = program := by
  rw [rebuild_eq_some]
  refine ⟨?_, ?_⟩
  · intro hrun
    obtain ⟨hcomplete, hwritten⟩ := run_trees (by simp) hrun
    refine ⟨hcomplete expr List.mem_cons_self, ?_⟩
    simpa [writtenOut] using hwritten
  · rintro ⟨hcomplete, rfl⟩
    exact Expr.run_program_trees hcomplete []

/-- The programs that can be rebuilt are those that are balanced. -/
theorem balanced_iff_rebuild {program : List Item} :
    IsBalanced program ↔ ∃ expr, rebuild program = some expr := by
  simp only [rebuild_eq_some]
  exact trees.balanced_iff_run program

instance (program : List Item) : Decidable (IsBalanced program) :=
  decidable_of_iff ((rebuild program).isSome = true)
    (Option.isSome_iff_exists.trans balanced_iff_rebuild.symm)

/-- Lowering is a bijection between complete expressions and balanced programs, and rebuilding a
program finds the complete expression of which it is the program. -/
theorem lowering_bijective :
    Set.BijOn Expr.program {expr | expr.isComplete = true} {program | IsBalanced program} ∧
      ∀ program expr, rebuild program = some expr ↔
        expr.isComplete = true ∧ expr.program = program := by
  refine ⟨⟨?_, ?_, ?_⟩, fun program expr => rebuild_eq_some_iff⟩
  · intro expr hcomplete
    exact balanced_iff_rebuild.2 ⟨expr, rebuild_eq_some_iff.2 ⟨hcomplete, rfl⟩⟩
  · intro first hfirst second hsecond hprogram
    have hrebuild := rebuild_eq_some_iff.2 ⟨hfirst, rfl⟩
    rw [hprogram, rebuild_eq_some_iff.2 ⟨hsecond, rfl⟩] at hrebuild
    exact (Option.some.inj hrebuild).symm
  · intro program hbalanced
    obtain ⟨expr, hrebuild⟩ := balanced_iff_rebuild.1 hbalanced
    exact ⟨expr, rebuild_eq_some_iff.1 hrebuild⟩

/-- An operator that was kept for two operands of which one leaves no value spoils the balance. -/
example :
    ¬ IsBalanced (Expr.binary .add (.binary .add .missing .missing) (.number 1)).program := by
  decide

end DecodeTables.Disassembly
