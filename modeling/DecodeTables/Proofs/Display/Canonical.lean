import Mathlib.Data.List.Chain
import DecodeTables.Proofs.Display.Body
import DecodeTables.Proofs.Display.Mnemonic

/-!
# Displays that are elaborated already

An elaborated display is `Canonical`: its mnemonic is trimmed, and its body has no empty literal and
no two literals in a row. Such a display can be written down again, `spelling`, with a separator
behind the mnemonic. `elaborate_spelling_iff` says that elaborating what is written down gives the
display back exactly if it is canonical, so elaborating a display twice is elaborating it once.
-/

namespace DecodeTables.Display

/-- Says that a body has no two literals in a row, and none that is empty. -/
structure Joined (body : List Element) : Prop where
  apart : body.IsChain fun first second =>
    first.operand?.isSome = true ∨ second.operand?.isSome = true
  nonempty : .literal "" ∉ body

/-- Says that a display has a joined body, and a mnemonic that neither begins nor ends with a
blank. -/
structure Canonical (display : Display) : Prop where
  mnemonic : Trimmed display.mnemonic
  body : Joined display.body

/-- An element of a body as a piece of a display as written. -/
def Element.piece : Element → Piece
  | literal text => .literal text
  | operand name => .operand name

/-- An elaborated display written down: the mnemonic, a separator, and the body. -/
def spelling (display : Display) : Written :=
  .literal display.mnemonic :: .separator :: display.body.map Element.piece

variable {text name : String} {body : List Element}

theorem joined_nil : Joined [] where
  apart := .nil
  nonempty := List.not_mem_nil

/-- A literal can be in front of a joined body if it is not empty and the body does not begin with
another. -/
theorem joined_literal_cons :
    Joined (.literal text :: body) ↔
      text ≠ "" ∧ (∀ next, body.head? ≠ some (.literal next)) ∧ Joined body := by
  refine ⟨?_, ?_⟩
  · rintro ⟨hapart, hnonempty⟩
    rw [List.isChain_cons] at hapart
    rw [List.mem_cons, not_or] at hnonempty
    refine ⟨?_, ?_, hapart.2, hnonempty.2⟩
    · rintro rfl
      exact hnonempty.1 rfl
    · intro next hnext
      cases hapart.1 _ hnext with
      | inl h | inr h => cases h
  · rintro ⟨hne, hhead, hapart, hnonempty⟩
    refine ⟨List.isChain_cons.2 ⟨?_, hapart⟩, ?_⟩
    · intro next hnext
      cases next with
      | literal other => exact absurd hnext (hhead other)
      | operand name => exact .inr rfl
    · rw [List.mem_cons, not_or]
      refine ⟨?_, hnonempty⟩
      rintro ⟨⟩
      exact hne rfl

/-- An operand can be in front of any joined body. -/
theorem joined_operand_cons : Joined (.operand name :: body) ↔ Joined body := by
  refine ⟨?_, ?_⟩
  · rintro ⟨hapart, hnonempty⟩
    exact ⟨(List.isChain_cons.1 hapart).2, fun h => hnonempty (List.mem_cons_of_mem _ h)⟩
  · rintro ⟨hapart, hnonempty⟩
    refine ⟨List.isChain_cons.2 ⟨fun _ _ => .inl rfl, hapart⟩, ?_⟩
    simpa using hnonempty

/-- A joined body stays joined when a literal comes in front. -/
theorem joined_prepend (h : Joined body) (text : String) : Joined (prepend text body) := by
  obtain ⟨-, hbody⟩ | ⟨hne, next, rest, rfl, hbody⟩ | ⟨hne, hhead, hbody⟩ := prepend_cases text body
  · rw [hbody]
    exact h
  · obtain ⟨-, hhead, hrest⟩ := joined_literal_cons.1 h
    have hboth : text ++ next ≠ "" := fun hempty => hne (String.append_eq_empty_iff.1 hempty).1
    rw [hbody]
    exact joined_literal_cons.2 ⟨hboth, hhead, hrest⟩
  · rw [hbody]
    exact joined_literal_cons.2 ⟨hne, hhead, h⟩

theorem joined_body_of (pieces : List Piece) : Joined (bodyOf pieces) := by
  induction pieces with
  | nil => exact joined_nil
  | cons piece pieces ih =>
      cases piece with
      | literal text => exact joined_prepend ih text
      | operand name => exact joined_operand_cons.2 ih
      | separator => exact joined_prepend ih " "

/-- The pieces of a joined body make up that body. -/
theorem body_of_pieces (h : Joined body) : bodyOf (body.map Element.piece) = body := by
  induction body with
  | nil => rfl
  | cons element body ih =>
      cases element with
      | operand name => exact congrArg (.operand name :: ·) (ih (joined_operand_cons.1 h))
      | literal text =>
          obtain ⟨hne, hhead, hbody⟩ := joined_literal_cons.1 h
          show prepend text (bodyOf (body.map Element.piece)) = .literal text :: body
          rw [ih hbody]
          obtain ⟨hempty, -⟩ | ⟨-, next, rest, rfl, -⟩ | ⟨-, -, hprepend⟩ := prepend_cases text body
          · exact absurd hempty hne
          · exact absurd rfl (hhead next)
          · exact hprepend

theorem canonical_elaborate (written : Written) : Canonical (elaborate written) where
  mnemonic := (trims_iff.2 rfl).trimmed
  body := joined_body_of (afterHead written)

/-- A canonical display that is written down splits into its mnemonic and its body. -/
theorem splits_spelling {display : Display} (h : Canonical display) :
    Splits display.spelling display.mnemonic (display.body.map Element.piece) := by
  refine ⟨[display.mnemonic], .separator :: display.body.map Element.piece, rfl, ?_, ?_, .inl rfl⟩
  · simp
  · exact ⟨⟨"", "", by simp, by simp, by simp⟩, h.mnemonic⟩

/-- A display comes back when it is written down and elaborated exactly if it is canonical. -/
theorem elaborate_spelling_iff {display : Display} :
    elaborate display.spelling = display ↔ Canonical display := by
  refine ⟨fun h => h ▸ canonical_elaborate display.spelling, ?_⟩
  intro h
  obtain ⟨hmnemonic, hbody⟩ := splits_iff.1 (splits_spelling h)
  have hsame : bodyOf (afterHead display.spelling) = display.body := by
    rw [hbody, body_of_pieces h.body]
  calc elaborate display.spelling
      = ⟨(elaborate display.spelling).mnemonic, bodyOf (afterHead display.spelling)⟩ := rfl
    _ = display := by rw [hmnemonic, hsame]

/-- An elaborated display has no blanks around its mnemonic, and in its body no empty literal and no
two literals in a row. Writing it down and elaborating it again changes neither the mnemonic nor the
body nor the operands. -/
theorem elaborate_canonical (written : Written) :
    Canonical (elaborate written) ∧
      elaborate (elaborate written).spelling = elaborate written ∧
      (elaborate (elaborate written).spelling).operands = (elaborate written).operands := by
  have hcanonical := canonical_elaborate written
  have hagain := elaborate_spelling_iff.2 hcanonical
  exact ⟨hcanonical, hagain, congrArg operands hagain⟩

end DecodeTables.Display
