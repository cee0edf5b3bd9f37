import DecodeTables.Proofs.Disassembly.StackMachine

/-!
# When the programs of expressions are balanced

A program is `Balanced` for an expression if it runs on a stack of values: every operator finds two
values, one value is left at the end, and there is nothing to run for an expression without numbers
and identifiers. An operator is kept where both of its operands were given, even if one of them has
no number and no identifier and so leaves no value. `stored_program_balanced_iff` says that
expressions without such operators, those with `operatorsFed`, are exactly those whose programs are
balanced.
-/

namespace DecodeTables.Disassembly

namespace Expr

/-- Says whether an expression has a number or an identifier in it. -/
def hasValue : Expr → Bool
  | missing => false
  | number _ => true
  | ident _ => true
  | binary _ left right => left.hasValue || right.hasValue

/-- Says whether every operator whose two operands were given computes with two values. -/
def operatorsFed : Expr → Bool
  | binary _ left right =>
      left.operatorsFed && right.operatorsFed &&
        (!(left.isGiven && right.isGiven) || (left.hasValue && right.hasValue))
  | _ => true

/-- The value of an expression, if it has one. An operator with the value of one operand only has
that value. -/
def value? {α : Type _} (meaning : Meaning α) : Expr → Option α
  | missing => none
  | number value => some (meaning.number value)
  | ident name => some (meaning.ident name)
  | binary operator left right =>
      match left.value? meaning, right.value? meaning with
      | some first, some second => some (meaning.apply operator first second)
      | some first, none => some first
      | none, second? => second?

/-- What it means for `program` to be balanced for `expr`. In every prefix an operator finds two
values, whatever values the program runs on. -/
structure Balanced (expr : Expr) (program : List Item) : Prop where
  operator_fed : ∀ {α : Type} (meaning : Meaning α) before operator after,
    program = before ++ .operator operator :: after →
      ∃ found, meaning.run before [] = some found ∧ 2 ≤ found.length
  one_left : expr.hasValue = true →
    ∀ {α : Type} (meaning : Meaning α), ∃ value, meaning.run program [] = some [value]
  nothing_to_run : expr.hasValue = false → program = []

variable {α : Type _} (meaning : Meaning α)

/-- An expression has a value if it has a number or an identifier. -/
theorem value_is_some (expr : Expr) : (expr.value? meaning).isSome = expr.hasValue := by
  induction expr with
  | missing | number | ident => rfl
  | binary operator left right ihl ihr =>
      rw [hasValue, ← ihl, ← ihr, value?]
      cases left.value? meaning <;> cases right.value? meaning <;> rfl

/-- An operator of which an operand is missing has the program of the other operand. -/
theorem program_missing_binary (operator : Operator) (right : Expr) :
    (binary operator missing right).program = right.program := by
  simp [program, isGiven]

theorem program_binary_missing (operator : Operator) (left : Expr) :
    (binary operator left missing).program = left.program := by
  simp [program, isGiven]

/-- An operator of which an operand is missing has the value of the other operand. -/
theorem value_missing_binary (operator : Operator) (right : Expr) :
    (binary operator missing right).value? meaning = right.value? meaning := rfl

theorem value_binary_missing (operator : Operator) (left : Expr) :
    (binary operator left missing).value? meaning = left.value? meaning := by
  simp only [value?]
  cases left.value? meaning <;> rfl

/-- An operand was given or is `missing`. -/
theorem given_or_missing (expr : Expr) : expr.isGiven = true ∨ expr = missing := by
  cases expr with
  | missing => exact Or.inr rfl
  | number | ident | binary => exact Or.inl rfl

/-- Where operators compute with two values, a program pushes the value of its expression, and
leaves the stack alone if there is no value. -/
theorem run_program {expr : Expr} (hfed : expr.operatorsFed = true) (stack : List α) :
    meaning.run expr.program stack = some ((expr.value? meaning).toList ++ stack) := by
  induction expr generalizing stack with
  | missing | number | ident => rfl
  | binary operator left right ihl ihr =>
      simp only [operatorsFed, Bool.and_eq_true, Bool.or_eq_true, Bool.not_eq_true'] at hfed
      obtain ⟨⟨hleft, hright⟩, hoperands⟩ := hfed
      rcases given_or_missing left with hl | rfl
      · rcases given_or_missing right with hr | rfl
        · simp only [hl, hr, Bool.and_self, Bool.true_eq_false, false_or] at hoperands
          rw [← value_is_some meaning, ← value_is_some meaning, Option.isSome_iff_exists,
            Option.isSome_iff_exists] at hoperands
          obtain ⟨⟨first, hfirst⟩, second, hsecond⟩ := hoperands
          simp only [program, hl, hr, Bool.and_self, ↓reduceIte, Meaning.run_append,
            ihl hleft, Option.bind_some, ihr hright, value?, hfirst, hsecond]
          rfl
        · rw [program_binary_missing, value_binary_missing]
          exact ihl hleft stack
      · rw [program_missing_binary, value_missing_binary]
        exact ihr hright stack

/-- The number of values that an expression should leave. -/
def valueCount (expr : Expr) : Nat :=
  expr.hasValue.toNat

/-- The items of an operator whose operands were both given. -/
theorem count_program_binary (operator : Operator) {left right : Expr}
    (hleft : left.isGiven = true) (hright : right.isGiven = true) :
    pushes (binary operator left right).program = pushes left.program + pushes right.program ∧
      operators (binary operator left right).program =
        operators left.program + operators right.program + 1 := by
  simp only [program, hleft, hright, Bool.and_self, ↓reduceIte, pushes_append, operators_append]
  exact ⟨rfl, rfl⟩

/-- A program puts on at most as many values as its operators take off and its expression should
leave. -/
theorem pushes_program_le (expr : Expr) :
    pushes expr.program ≤ operators expr.program + expr.valueCount := by
  induction expr with
  | missing | number | ident => exact Nat.le_refl _
  | binary operator left right ihl ihr =>
      rcases given_or_missing left with hl | rfl
      · rcases given_or_missing right with hr | rfl
        · obtain ⟨hpushes, hoperators⟩ := count_program_binary operator hl hr
          rw [hpushes, hoperators]
          simp only [valueCount, hasValue] at ihl ihr ⊢
          cases hvl : left.hasValue <;> cases hvr : right.hasValue <;>
            simp only [hvl, hvr, Bool.toNat_false, Bool.toNat_true, Bool.or_self, Bool.or_true,
              Bool.or_false] at ihl ihr ⊢ <;>
            omega
        · rw [program_binary_missing]
          simpa [valueCount, hasValue] using ihl
      · rw [program_missing_binary]
        simpa [valueCount, hasValue] using ihr

/-- Only where operators compute with two values does a program put on as many values as its
operators take off and its expression should leave. -/
theorem operators_fed_of_pushes {expr : Expr}
    (h : pushes expr.program = operators expr.program + expr.valueCount) :
    expr.operatorsFed = true := by
  induction expr with
  | missing | number | ident => rfl
  | binary operator left right ihl ihr =>
      rcases given_or_missing left with hl | rfl
      · rcases given_or_missing right with hr | rfl
        · obtain ⟨hpushes, hoperators⟩ := count_program_binary operator hl hr
          have hleft := pushes_program_le left
          have hright := pushes_program_le right
          rw [hpushes, hoperators] at h
          simp only [valueCount, hasValue] at hleft hright h ihl ihr
          -- an operand without a value leaves too few values for the operator
          cases hvl : left.hasValue <;> cases hvr : right.hasValue <;>
            simp only [hvl, hvr, Bool.toNat_false, Bool.toNat_true, Bool.or_self, Bool.or_true,
              Bool.or_false] at hleft hright h ihl ihr <;>
            try omega
          simp [operatorsFed, hl, hr, hvl, hvr, ihl (by omega), ihr (by omega)]
        · rw [program_binary_missing] at h
          have hleft := ihl (by simpa [valueCount, hasValue] using h)
          simp [operatorsFed, isGiven, hleft]
      · rw [program_missing_binary] at h
        have hright := ihr (by simpa [valueCount, hasValue] using h)
        simp [operatorsFed, isGiven, hright]

/-- Where operators compute with two values, there is nothing to run for an expression without a
value. -/
theorem program_eq_nil {expr : Expr} (hfed : expr.operatorsFed = true)
    (hvalue : expr.hasValue = false) : expr.program = [] := by
  induction expr with
  | missing => rfl
  | number | ident => cases hvalue
  | binary operator left right ihl ihr =>
      simp only [hasValue, Bool.or_eq_false_iff] at hvalue
      simp only [operatorsFed, hvalue, Bool.and_eq_true, Bool.or_eq_true, Bool.and_self,
        Bool.false_eq_true, or_false, Bool.not_eq_true'] at hfed
      obtain ⟨⟨hleft, hright⟩, hgiven⟩ := hfed
      simp [program, ihl hleft hvalue.1, ihr hright hvalue.2, hgiven]

/-- The program of an expression is balanced exactly if its operators compute with two values. -/
theorem program_balanced (expr : Expr) :
    Balanced expr expr.program ↔ expr.operatorsFed = true := by
  constructor
  · intro hbalanced
    apply operators_fed_of_pushes
    cases hvalue : expr.hasValue with
    | false =>
        rw [hbalanced.nothing_to_run hvalue, valueCount, hvalue]
        rfl
    | true =>
        let counting : Meaning Unit := ⟨fun _ => (), fun _ => (), fun _ _ _ => ()⟩
        obtain ⟨value, hrun⟩ := hbalanced.one_left hvalue counting
        have hlength := counting.run_length hrun
        simp only [List.length_singleton, List.length_nil] at hlength
        simp only [valueCount, hvalue, Bool.toNat_true]
        omega
  · intro hfed
    refine ⟨?_, ?_, ?_⟩
    · intro α meaning before operator after hsplit
      have hrun := run_program meaning hfed []
      rw [hsplit] at hrun
      exact meaning.operator_finds_two hrun
    · intro hvalue α meaning
      rw [← value_is_some meaning, Option.isSome_iff_exists] at hvalue
      obtain ⟨value, hvalue⟩ := hvalue
      refine ⟨value, ?_⟩
      rw [run_program meaning hfed, hvalue]
      rfl
    · exact program_eq_nil hfed

end Expr

/-- The program that elaboration stores for an action is balanced for the expression of the action
exactly if all operators of the expression that were given two operands compute with two values. -/
theorem stored_program_balanced_iff (written : Written) (index : Fin written.length) :
    ∃ action, (elaborate written).actions[index]? = some action ∧
      (written[index].value.Balanced action.program ↔
        written[index].value.operatorsFed = true) := by
  refine ⟨Action.elaborate written[index], ?_, Expr.program_balanced _⟩
  simp [elaborate]

/-- A sum whose left operand is a sum without operands keeps its operator, which then finds a single
value on the stack. -/
theorem sum_with_empty_operand_not_balanced :
    let expr : Expr := .binary .add (.binary .add .missing .missing) (.number 1)
    (elaborate [{ target := "x", value := expr }]).actions.map Action.program =
        [[.number 1, .operator .add]] ∧
      ¬ expr.Balanced [.number 1, .operator .add] := by
  refine ⟨rfl, ?_⟩
  intro hbalanced
  obtain ⟨found, hrun, htwo⟩ :=
    hbalanced.operator_fed ⟨fun _ => (), fun _ => (), fun _ _ _ => ()⟩ [.number 1] .add [] rfl
  cases hrun
  exact absurd htwo (by decide)

end DecodeTables.Disassembly
