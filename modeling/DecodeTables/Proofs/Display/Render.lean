import DecodeTables.Proofs.Display.Body
import DecodeTables.Proofs.Display.Mnemonic

/-!
# What is shown of a display as written

An elaborated display is shown as the display as written reads: the mnemonic, a space if something
comes behind it, and then piece by piece what is left, with the operands replaced by their texts and
a space for each separator. `render_elaborate` says so. That neighbouring literals are joined and
empty ones dropped does not show, `join_render_body_of`.
-/

namespace DecodeTables.Display

/-- The text of a piece where it is written, with the text that `texts` has for an operand, or else
its name. -/
def Piece.render (texts : String → Option String) : Piece → String
  | literal text => text
  | operand name => (texts name).getD name
  | separator => " "

/-- What is shown for a mnemonic with the pieces `rest` behind it. A space stands in between if
there is a mnemonic, and behind it an operand, a separator or a literal that is not empty. -/
def shown (mnemonic : String) (rest : List Piece) (texts : String → Option String) : String :=
  let gap := if mnemonic ≠ "" ∧ ∃ piece ∈ rest, piece ≠ .literal "" then " " else ""
  mnemonic ++ gap ++ String.join (rest.map (Piece.render texts))

variable {texts : String → Option String}

theorem join_render_prepend (text : String) (body : List Element) :
    String.join ((prepend text body).map (Element.render texts)) =
      text ++ String.join (body.map (Element.render texts)) := by
  obtain ⟨rfl, h⟩ | ⟨-, next, rest, rfl, h⟩ | ⟨-, -, h⟩ := prepend_cases text body
  · rw [h, String.empty_append]
  · rw [h, List.map_cons, String.join_cons, List.map_cons, String.join_cons,
      ← String.append_assoc]
    rfl
  · rw [h, List.map_cons, String.join_cons]
    rfl

/-- A body is shown as the pieces that it is made of. -/
theorem join_render_body_of (pieces : List Piece) :
    String.join ((bodyOf pieces).map (Element.render texts)) =
      String.join (pieces.map (Piece.render texts)) := by
  induction pieces with
  | nil => rfl
  | cons piece pieces ih =>
      rw [List.map_cons, String.join_cons, ← ih]
      cases piece with
      | literal text => exact join_render_prepend text (bodyOf pieces)
      | operand name => rw [bodyOf, List.map_cons, String.join_cons]; rfl
      | separator => exact join_render_prepend " " (bodyOf pieces)

/-- Every display as written splits into a mnemonic and a rest, and the elaborated display is shown
as these two read, whatever texts the operands have. -/
theorem render_elaborate (written : Written) (texts : String → Option String) :
    (∃ mnemonic rest, Splits written mnemonic rest) ∧
      ∀ mnemonic rest, Splits written mnemonic rest →
        (elaborate written).render texts = shown mnemonic rest texts := by
  refine ⟨⟨_, _, splits_elaborate written⟩, ?_⟩
  intro mnemonic rest hsplits
  obtain ⟨rfl, rfl⟩ := splits_iff.1 hsplits
  have hgap : ((elaborate written).mnemonic = "" ∨ (elaborate written).body = []) ↔
      ¬ ((elaborate written).mnemonic ≠ "" ∧
        ∃ piece ∈ afterHead written, piece ≠ .literal "") := by
    have hbody : (elaborate written).body = [] ↔
        ∀ piece ∈ afterHead written, piece = .literal "" := body_of_eq_nil_iff
    rw [hbody, not_and_or]
    simp
  have hjoin : String.join ((elaborate written).body.map (Element.render texts)) =
      String.join ((afterHead written).map (Piece.render texts)) := join_render_body_of _
  rw [render, shown, hjoin]
  simp only [hgap, ite_not]

/-- Blanks around the mnemonic go, and so does the separator behind it, but not a second one. An
empty literal does not show, and an operand without a text is shown by its name. -/
theorem render_elaborate_add :
    let written : Written :=
      [.literal " ad", .literal "d\t", .separator, .separator, .literal "", .operand "rd",
        .literal ",", .separator, .operand "rs"]
    let rest : List Piece :=
      [.separator, .literal "", .operand "rd", .literal ",", .separator, .operand "rs"]
    let texts : String → Option String := fun name => if name = "rd" then some "r1" else none
    Splits written "add" rest ∧ shown "add" rest texts = "add  r1, rs" ∧
      (elaborate written).render texts = "add  r1, rs" := by
  intro written rest texts
  have hsplits : Splits written "add" rest := splits_iff.2 ⟨by decide, rfl⟩
  have hshown : shown "add" rest texts = "add  r1, rs" := by decide
  refine ⟨hsplits, hshown, ?_⟩
  rw [(render_elaborate written texts).2 "add" rest hsplits, hshown]

end DecodeTables.Display
