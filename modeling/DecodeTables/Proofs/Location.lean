import DecodeTables.Location
import DecodeTables.Proofs.Text

/-!
# What the text of a location tells

The text of a location shows its file, its line and its column up to the first of them that is not
known, `text_eq`. Numbers that are shown can be read back, so texts are the same exactly if they
show the same numbers, `text_eq_text_iff`. `same_text_iff` says of two locations what that means.
-/

namespace DecodeTables.Location

/-- The components of a location before the first one that is not known. -/
def shown (loc : Location) : List Nat :=
  [loc.file, loc.line, loc.column].takeWhile (· ≠ 0)

variable {first second : Location}

/-- The text of a location is made of the components that it shows. -/
theorem text_eq (loc : Location) :
    loc.text =
      if loc.shown = [] then "<unknown>"
      else "file#" ++ (String.singleton ':').intercalate (loc.shown.map toString) := by
  by_cases hfile : loc.file = 0
  · simp [text, isKnown, shown, hfile]
  · by_cases hline : loc.line = 0
    · simp [text, isKnown, lineText, hasLine, shown, hfile, hline, toString]
    · by_cases hcolumn : loc.column = 0 <;>
        simp [text, isKnown, lineText, hasLine, hasColumn, shown, hfile, hline, hcolumn, toString,
          String.append_assoc]

/-- A location without a file does not look like one with a file. -/
theorem unknown_ne (rest : String) : "<unknown>" ≠ "file#" ++ rest := by
  intro hsame
  have hhead := congrArg (·.toList.head?) hsame
  simp at hhead

theorem separable_shown {loc : Location} (hknown : loc.shown ≠ []) :
    Separable ':' (loc.shown.map toString) where
  ne_nil := mt List.map_eq_nil_iff.1 hknown
  free := by
    rw [List.forall_mem_map]
    intro number _ hcolon
    exact absurd (is_digit_of_mem_text hcolon) (by decide)

/-- Texts of locations are the same exactly if they show the same components. -/
theorem text_eq_text_iff : first.text = second.text ↔ first.shown = second.shown := by
  refine ⟨?_, fun hshown => by rw [text_eq, text_eq, hshown]⟩
  intro hsame
  rw [text_eq, text_eq] at hsame
  by_cases hfirst : first.shown = []
  · by_cases hsecond : second.shown = []
    · rw [hfirst, hsecond]
    · rw [if_pos hfirst, if_neg hsecond] at hsame
      exact absurd hsame (unknown_ne _)
  · by_cases hsecond : second.shown = []
    · rw [if_neg hfirst, if_pos hsecond] at hsame
      exact absurd hsame.symm (unknown_ne _)
    · rw [if_neg hfirst, if_neg hsecond, String.append_right_inj,
        intercalate_inj (separable_shown hfirst) (separable_shown hsecond)] at hsame
      exact (List.map_inj_right fun _ _ => text_of_number_inj.1).1 hsame

/-- Numbers are the same up to the first zero if both begin with a zero, or both with the same other
number and the rest is the same up to the first zero. -/
theorem take_known_cons_eq_iff {number other : Nat} {rest others : List Nat} :
    (number :: rest).takeWhile (· ≠ 0) = (other :: others).takeWhile (· ≠ 0) ↔
      number = 0 ∧ other = 0 ∨
        number ≠ 0 ∧ number = other ∧ rest.takeWhile (· ≠ 0) = others.takeWhile (· ≠ 0) := by
  by_cases hnumber : number = 0 <;> by_cases hother : other = 0 <;>
    simp [hnumber, hother]

/-- Two locations have the same text exactly if the file of neither is known, or if both are in the
same known file, at the same line, and also at the same column unless that line is not known. -/
theorem same_text_iff (first second : Location) :
    first.text = second.text ↔
      first.file = 0 ∧ second.file = 0 ∨
        first.file ≠ 0 ∧ first.file = second.file ∧ first.line = second.line ∧
          (first.line ≠ 0 → first.column = second.column) := by
  rw [text_eq_text_iff, shown, shown, take_known_cons_eq_iff, take_known_cons_eq_iff,
    take_known_cons_eq_iff]
  simp only [List.takeWhile_nil, and_true]
  omega

/-- A column that is not shown, because the line is not known, is not told apart. -/
example : (⟨3, 0, 5⟩ : Location).text = (⟨3, 0, 0⟩ : Location).text := by decide

end DecodeTables.Location
