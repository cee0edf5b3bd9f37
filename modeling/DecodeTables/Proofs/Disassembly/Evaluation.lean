import DecodeTables.Proofs.Disassembly.StackBalance

/-!
# The values of expressions

`meaning.Evaluates expr value` says which value an expression has: an operator computes with the
values of its left and its right operand, in this order, or has the value of the one operand that it
was given. `evaluates_iff` says that expressions have a value where each operator was given an
operand, and the one that `Expr.value?` computes. `stored_program_evaluates` says that the stored
programs of such expressions leave this value on top of whatever stack they run on.
-/

namespace DecodeTables.Disassembly

/-- `Evaluates meaning expr value` says that `expr` has the value `value`. -/
inductive Meaning.Evaluates {α : Type _} (meaning : Meaning α) : Expr → α → Prop where
  | number (value : Int64) : Evaluates meaning (.number value) (meaning.number value)
  | ident (name : String) : Evaluates meaning (.ident name) (meaning.ident name)
  | both {operator left right first second} :
      Evaluates meaning left first → Evaluates meaning right second →
      Evaluates meaning (.binary operator left right) (meaning.apply operator first second)
  | left_only {operator left value} :
      Evaluates meaning left value → Evaluates meaning (.binary operator left .missing) value
  | right_only {operator right value} :
      Evaluates meaning right value → Evaluates meaning (.binary operator .missing right) value

namespace Expr

/-- Says whether every operator was given at least one operand. -/
def hasOperands : Expr → Bool
  | binary _ left right =>
      (left.isGiven || right.isGiven) && left.hasOperands && right.hasOperands
  | _ => true

/-- Where operators have operands, an expression that was given has a number or an identifier. -/
theorem has_value_of_operands {expr : Expr} (h : expr.hasOperands = true) :
    expr.hasValue = expr.isGiven := by
  induction expr with
  | missing | number | ident => rfl
  | binary operator left right ihl ihr =>
      simp only [hasOperands, Bool.and_eq_true] at h
      obtain ⟨⟨hgiven, hleft⟩, hright⟩ := h
      rw [hasValue, ihl hleft, ihr hright, hgiven]
      rfl

/-- Where operators have operands, those with two of them compute with two values. -/
theorem operators_fed_of_operands {expr : Expr} (h : expr.hasOperands = true) :
    expr.operatorsFed = true := by
  induction expr with
  | missing | number | ident => rfl
  | binary operator left right ihl ihr =>
      simp only [hasOperands, Bool.and_eq_true] at h
      obtain ⟨⟨-, hleft⟩, hright⟩ := h
      rw [operatorsFed, ihl hleft, ihr hright, has_value_of_operands hleft,
        has_value_of_operands hright, Bool.not_or_self]
      rfl

end Expr

namespace Meaning

variable {α : Type _} {meaning : Meaning α} {expr : Expr} {value : α}

/-- Only an expression that was given can have a value. -/
theorem Evaluates.is_given (h : meaning.Evaluates expr value) : expr.isGiven = true := by
  cases h <;> rfl

/-- Only where operators have operands can an expression have a value. -/
theorem Evaluates.has_operands (h : meaning.Evaluates expr value) : expr.hasOperands = true := by
  induction h with
  | number | ident => rfl
  | both hleft hright ihl ihr =>
      rw [Expr.hasOperands, hleft.is_given, ihl, ihr]
      rfl
  | left_only hleft ih =>
      rw [Expr.hasOperands, hleft.is_given, ih]
      rfl
  | right_only hright ih =>
      rw [Expr.hasOperands, hright.is_given, ih]
      rfl

/-- The value of an expression is the one that is computed. -/
theorem Evaluates.value_eq (h : meaning.Evaluates expr value) :
    expr.value? meaning = some value := by
  induction h with
  | number | ident => rfl
  | both _ _ ihl ihr => rw [Expr.value?, ihl, ihr]
  | left_only _ ih => rw [Expr.value_binary_missing, ih]
  | right_only _ ih => rw [Expr.value_missing_binary, ih]

/-- Where operators have operands, what is computed is the value. -/
theorem evaluates_of_value (hoperands : expr.hasOperands = true)
    (hvalue : expr.value? meaning = some value) : meaning.Evaluates expr value := by
  induction expr generalizing value with
  | missing => cases hvalue
  | number number =>
      cases hvalue
      exact .number number
  | ident name =>
      cases hvalue
      exact .ident name
  | binary operator left right ihl ihr =>
      simp only [Expr.hasOperands, Bool.and_eq_true] at hoperands
      obtain ⟨⟨hgiven, hleft⟩, hright⟩ := hoperands
      rcases Expr.given_or_missing left with hl | rfl
      · rcases Expr.given_or_missing right with hr | rfl
        · -- operands that were given have values
          rw [← Expr.has_value_of_operands hleft, ← Expr.value_is_some meaning,
            Option.isSome_iff_exists] at hl
          rw [← Expr.has_value_of_operands hright, ← Expr.value_is_some meaning,
            Option.isSome_iff_exists] at hr
          obtain ⟨first, hfirst⟩ := hl
          obtain ⟨second, hsecond⟩ := hr
          rw [Expr.value?, hfirst, hsecond] at hvalue
          cases hvalue
          exact .both (ihl hleft hfirst) (ihr hright hsecond)
        · rw [Expr.value_binary_missing] at hvalue
          exact .left_only (ihl hleft hvalue)
      · rw [Expr.value_missing_binary] at hvalue
        exact .right_only (ihr hright hvalue)

/-- An expression has the value that is computed, provided that operators have operands. -/
theorem evaluates_iff :
    meaning.Evaluates expr value ↔
      expr.hasOperands = true ∧ expr.value? meaning = some value :=
  ⟨fun h => ⟨h.has_operands, h.value_eq⟩, fun h => evaluates_of_value h.1 h.2⟩

/-- The program of an expression whose operators have operands pushes the value of the expression,
and does nothing else to the stack. -/
theorem run_program_of_operands (meaning : Meaning α) (hgiven : expr.isGiven = true)
    (hoperands : expr.hasOperands = true) :
    ∃ value, (∀ other, meaning.Evaluates expr other ↔ other = value) ∧
      ∀ stack, meaning.run expr.program stack = some (value :: stack) := by
  have hvalue : (expr.value? meaning).isSome = true := by
    rw [Expr.value_is_some, Expr.has_value_of_operands hoperands, hgiven]
  obtain ⟨value, hvalue⟩ := Option.isSome_iff_exists.1 hvalue
  refine ⟨value, ?_, ?_⟩
  · intro other
    rw [evaluates_iff, hvalue, Option.some.injEq, @eq_comm _ value]
    exact and_iff_right hoperands
  · intro stack
    rw [Expr.run_program meaning (Expr.operators_fed_of_operands hoperands), hvalue]
    rfl

end Meaning

/-- Whatever numbers, identifiers and operators mean, the program that elaboration stores for an
action computes the one value of the expression of the action, if each operator in it was given an
operand: run on any stack, it succeeds and puts this value on top. -/
theorem stored_program_evaluates (written : Written) (index : Fin written.length)
    (hgiven : (written.get index).value.isGiven = true)
    (hoperands : (written.get index).value.hasOperands = true) {α : Type _} (meaning : Meaning α) :
    ∃ action, (elaborate written).actions[index]? = some action ∧
      ∃ value, (∀ other, meaning.Evaluates (written.get index).value other ↔ other = value) ∧
        ∀ stack, meaning.run action.program stack = some (value :: stack) := by
  refine ⟨Action.elaborate (written.get index), ?_, ?_⟩
  · simp [elaborate]
  · exact meaning.run_program_of_operands hgiven hoperands

/-- A difference whose right operand is a product with one operand is the difference of its left
operand and that one. -/
theorem stored_program_evaluates_difference :
    let written : Written :=
      [{ target := "x"
         value := .binary .sub (.number 7) (.binary .mul .missing (.ident "y")) }]
    let meaning : Meaning Int :=
      ⟨Int64.toInt, fun _ => 3, fun operator first second =>
        if operator = .sub then first - second else first * second⟩
    (written[0].value.isGiven = true ∧ written[0].value.hasOperands = true) ∧
      (elaborate written).actions.map Action.program =
        [[.number 7, .ident "y", .operator .sub]] ∧
      meaning.run [.number 7, .ident "y", .operator .sub] [100] = some [4, 100] := by
  intro written meaning
  have hvalue : meaning.Evaluates written[0].value 4 := .both (.number 7) (.right_only (.ident "y"))
  obtain ⟨action, haction, value, hunique, hrun⟩ :=
    stored_program_evaluates written 0 rfl rfl meaning
  cases haction
  rw [(hunique 4).1 hvalue]
  exact ⟨⟨rfl, rfl⟩, rfl, hrun [100]⟩

end DecodeTables.Disassembly
