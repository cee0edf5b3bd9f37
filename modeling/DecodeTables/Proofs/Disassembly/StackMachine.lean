import DecodeTables.Disassembly

/-!
# The machine that runs postfix programs

A `Meaning` says which values numbers and identifiers stand for and what operators compute.
`Meaning.run` runs a program on a stack of such values, the top of the stack first, and fails where
an operator finds fewer than two values. `run_append` runs one program after another.
`operator_finds_two` says that a run which does not fail has two values for each of its operators,
and `run_length` counts the values that it leaves.
-/

namespace DecodeTables.Disassembly

/-- What numbers, identifiers and operators mean among the values of some kind. -/
structure Meaning (α : Type _) where
  number : Int64 → α
  ident : String → α
  apply : Operator → α → α → α

/-- Says whether an item is an operator, which takes two values off the stack. -/
def Item.isOperator : Item → Bool
  | operator _ => true
  | _ => false

/-- The number of operators of a program. -/
def operators (program : List Item) : Nat :=
  program.countP Item.isOperator

/-- The number of numbers and identifiers of a program. -/
def pushes (program : List Item) : Nat :=
  program.countP fun item => !item.isOperator

theorem operators_append (first second : List Item) :
    operators (first ++ second) = operators first + operators second :=
  List.countP_append

theorem pushes_append (first second : List Item) :
    pushes (first ++ second) = pushes first + pushes second :=
  List.countP_append

namespace Meaning

variable {α : Type _} (meaning : Meaning α)

/-- The stack after an item. An operator takes its right operand off first, and there is no stack
afterwards if it finds fewer than two values. -/
def next (stack : List α) : Item → Option (List α)
  | .number value => some (meaning.number value :: stack)
  | .ident name => some (meaning.ident name :: stack)
  | .operator operator =>
      match stack with
      | right :: left :: rest => some (meaning.apply operator left right :: rest)
      | _ => none

/-- The stack after a program. -/
def run : List Item → List α → Option (List α)
  | [], stack => some stack
  | item :: items, stack => (meaning.next stack item).bind (run items)

@[simp] theorem run_nil (stack : List α) : meaning.run [] stack = some stack := rfl

@[simp] theorem run_cons (item : Item) (items : List Item) (stack : List α) :
    meaning.run (item :: items) stack = (meaning.next stack item).bind (meaning.run items) := rfl

/-- Running one program after another is running the second on what the first leaves. -/
theorem run_append (first second : List Item) (stack : List α) :
    meaning.run (first ++ second) stack =
      (meaning.run first stack).bind (meaning.run second) := by
  induction first generalizing stack with
  | nil => rfl
  | cons item items ih =>
      simp only [List.cons_append, run_cons]
      cases meaning.next stack item with
      | none => rfl
      | some following => exact ih following

/-- An operator that does not fail found two values, and leaves one in their place. -/
theorem next_operator {operator : Operator} {stack following : List α}
    (h : meaning.next stack (.operator operator) = some following) :
    2 ≤ stack.length ∧ following.length + 1 = stack.length := by
  match stack, h with
  | right :: left :: rest, h =>
      cases h
      simp

/-- What each item does to the number of values. -/
theorem next_length {item : Item} {stack following : List α}
    (h : meaning.next stack item = some following) :
    following.length + (if item.isOperator then 1 else 0) =
      stack.length + (if item.isOperator then 0 else 1) := by
  cases item with
  | number value =>
      cases h
      simp [Item.isOperator]
  | ident name =>
      cases h
      simp [Item.isOperator]
  | operator operator => exact (meaning.next_operator h).2

/-- Where a run does not fail, every operator of the program finds at least two values. -/
theorem operator_finds_two {before after : List Item} {operator : Operator}
    {stack following : List α}
    (h : meaning.run (before ++ .operator operator :: after) stack = some following) :
    ∃ found, meaning.run before stack = some found ∧ 2 ≤ found.length := by
  rw [run_append, Option.bind_eq_some_iff] at h
  obtain ⟨found, hfound, h⟩ := h
  rw [run_cons, Option.bind_eq_some_iff] at h
  obtain ⟨_, hnext, _⟩ := h
  exact ⟨found, hfound, (meaning.next_operator hnext).1⟩

/-- A run that does not fail takes off one value for each operator and puts on one for each other
item. -/
theorem run_length {program : List Item} {stack following : List α}
    (h : meaning.run program stack = some following) :
    following.length + operators program = stack.length + pushes program := by
  induction program generalizing stack with
  | nil =>
      cases h
      rfl
  | cons item items ih =>
      rw [run_cons, Option.bind_eq_some_iff] at h
      obtain ⟨middle, hnext, hrest⟩ := h
      have hitem := meaning.next_length hnext
      have hitems := ih hrest
      rw [operators, pushes, List.countP_cons, List.countP_cons]
      rw [operators, pushes] at hitems
      cases hoperator : item.isOperator <;> simp [hoperator] at hitem ⊢ <;> omega

end Meaning

end DecodeTables.Disassembly
