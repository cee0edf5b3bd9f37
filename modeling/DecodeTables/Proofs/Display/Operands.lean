import Mathlib.Algebra.Order.BigOperators.Group.List
import Mathlib.Algebra.Order.Group.Nat
import DecodeTables.Proofs.Display.Body
import DecodeTables.Proofs.Display.Mnemonic

/-!
# What the text of a display depends on

The operands of a display are those that it has as written, `operands_elaborate`. Two choices of
texts that show the same for each of them show the same display, `render_congr`, and a longer text
for one of them makes a longer display, `length_render_lt`. So the operands are exactly the names on
which the text of a display depends: `render_depends_on_operands`.
-/

namespace DecodeTables.Display

/-- Says that two choices of texts show the same for each of `names`: the text that is chosen, or
the name itself if there is none. -/
def ShowAlike (names : List String) (first second : String → Option String) : Prop :=
  ∀ name ∈ names, (first name).getD name = (second name).getD name

/-- Neither the literals at the beginning nor the separator behind them is an operand. -/
theorem operands_of_splits {written : Written} {mnemonic : String} {rest : List Piece}
    (h : Splits written mnemonic rest) :
    rest.filterMap Piece.operand? = written.filterMap Piece.operand? := by
  obtain ⟨literals, remaining, rfl, -, -, hrest⟩ := h
  have hnone : (literals.map Piece.literal).filterMap Piece.operand? = [] := by
    simp [Piece.operand?]
  rw [List.filterMap_append, hnone, List.nil_append]
  rcases hrest with rfl | ⟨-, rfl⟩
  · rfl
  · rfl

/-- An elaborated display has the operands of the display as written, each once and in order of
first use. -/
theorem operands_elaborate (written : Written) :
    (elaborate written).operands = firstUses (written.filterMap Piece.operand?) := by
  rw [operands, elaborate, operands_body_of, operands_of_splits (splits_elaborate written)]

theorem mem_operands_elaborate_iff {written : Written} {name : String} :
    name ∈ (elaborate written).operands ↔ .operand name ∈ written := by
  rw [operands_elaborate, mem_first_uses, List.mem_filterMap]
  simp only [Piece.operand_eq_some_iff, exists_eq_right]

variable {display : Display} {name : String} {first second : String → Option String}

theorem mem_operands_iff : name ∈ display.operands ↔ .operand name ∈ display.body := by
  rw [operands, mem_first_uses, List.mem_filterMap]
  simp only [Element.operand_eq_some_iff, exists_eq_right]

/-- Texts of other names do not matter. -/
theorem render_congr (h : ShowAlike display.operands first second) :
    display.render first = display.render second := by
  have hbody : display.body.map (Element.render first) =
      display.body.map (Element.render second) := by
    refine List.map_congr_left fun element hmem => ?_
    cases element with
    | literal text => rfl
    | operand name => exact h name (mem_operands_iff.2 hmem)
  rw [render, render, hbody]

/-- Whatever else is shown, a longer text for an operand makes a longer display. -/
theorem length_render_lt (hmem : name ∈ display.operands)
    (hsame : ∀ other, other ≠ name → first other = second other)
    (hlonger : ((first name).getD name).length < ((second name).getD name).length) :
    (display.render first).length < (display.render second).length := by
  have helement : ∀ element ∈ display.body,
      (element.render first).length ≤ (element.render second).length := by
    intro element _
    cases element with
    | literal text => exact Nat.le_refl _
    | operand other =>
        by_cases hother : other = name
        · rw [hother]
          exact hlonger.le
        · rw [Element.render, Element.render, hsame other hother]
  -- the operand is somewhere in the body, and there the text is longer
  have hsum := List.sum_lt_sum _ _ helement ⟨.operand name, mem_operands_iff.1 hmem, hlonger⟩
  simp only [render, String.length_append, String.length_join, List.map_map]
  exact Nat.add_lt_add_left hsum _

/-- Any choice of texts can be changed for one operand alone so that the display shows it. -/
theorem exists_render_ne (hmem : name ∈ display.operands) (texts : String → Option String) :
    ∃ text, display.render (Function.update texts name (some text)) ≠ display.render texts := by
  let text := (texts name).getD name ++ "."
  have hlonger : (display.render texts).length <
      (display.render (Function.update texts name (some text))).length := by
    refine length_render_lt hmem (fun other hne => (Function.update_of_ne hne _ _).symm) ?_
    rw [Function.update_self, Option.getD_some, String.length_append]
    exact Nat.lt_add_one _
  exact ⟨text, fun hsame => Nat.ne_of_gt hlonger (congrArg String.length hsame)⟩

/-- The operands are the names on which the text of a display depends. -/
theorem mem_operands_iff_exists_ne :
    name ∈ display.operands ↔
      ∃ first second, (∀ other, other ≠ name → first other = second other) ∧
        display.render first ≠ display.render second := by
  refine ⟨?_, ?_⟩
  · intro hmem
    obtain ⟨text, htext⟩ := exists_render_ne hmem fun _ => none
    exact ⟨_, _, fun other hne => Function.update_of_ne hne _ _, htext⟩
  · rintro ⟨first, second, hsame, hne⟩
    by_contra hmem
    refine hne (render_congr fun other hother => ?_)
    rw [hsame other fun heq => hmem (heq ▸ hother)]

/-- The operands of an elaborated display are the operands that it has as written. Choices of texts
that show the same for each of them give the same text of the display. For each of them any choice
can be changed in its text only, so that the text of the display changes. So the operands are the
names on which the text of the display depends. -/
theorem render_depends_on_operands (written : Written) :
    let display := elaborate written
    (∀ name, name ∈ display.operands ↔ .operand name ∈ written) ∧
      (∀ first second, ShowAlike display.operands first second →
        display.render first = display.render second) ∧
      (∀ name ∈ display.operands, ∀ texts, ∃ text,
        display.render (Function.update texts name (some text)) ≠ display.render texts) ∧
      ∀ name, name ∈ display.operands ↔
        ∃ first second, (∀ other, other ≠ name → first other = second other) ∧
          display.render first ≠ display.render second := by
  intro display
  refine ⟨fun _ => mem_operands_elaborate_iff, fun _ _ => render_congr, ?_, ?_⟩
  · intro name hmem texts
    exact exists_render_ne hmem texts
  · intro name
    exact mem_operands_iff_exists_ne

/-- An operand that occurs twice is listed once. A choice of texts may have its name for it, or
texts of names that do not occur, and nothing changes. -/
theorem render_depends_on_operands_imm :
    let written : Written :=
      [.literal "b", .separator, .operand "imm", .literal ",", .operand "imm"]
    let texts : String → Option String := fun name => if name = "imm" then some "imm" else some "r1"
    let display := elaborate written
    (ShowAlike display.operands (fun _ => none) texts ∧
        display.render (fun _ => none) = display.render texts) ∧
      "imm" ∈ display.operands ∧
        ∃ text,
          display.render (Function.update texts "imm" (some text)) ≠ display.render texts := by
  intro written texts display
  obtain ⟨hoperands, halike, hchange, -⟩ := render_depends_on_operands written
  have himm : "imm" ∈ display.operands := (hoperands "imm").2 (by decide)
  have hshow : ShowAlike display.operands (fun _ => none) texts := by
    intro name hname
    have hsame : name = "imm" := by
      have hlisted : display.operands = ["imm"] := by decide
      rw [hlisted] at hname
      exact List.mem_singleton.1 hname
    rw [hsame]
    rfl
  exact ⟨⟨hshow, halike _ _ hshow⟩, himm, hchange "imm" himm texts⟩

end DecodeTables.Display
