import DecodeTables.Display

/-!
# What the body of a display is made of

A body is put together from its end, piece by piece. `prepend_cases` says all that happens when a
literal comes in front: it is empty and adds nothing, or the body begins with a literal and the two
are joined, or it is an element of its own. So a body has the operands of the pieces that it is made
of, `operands_body_of`, and has nothing only if these are empty literals, `body_of_eq_nil_iff`.
-/

namespace DecodeTables.Display

/-- The name of an operand. -/
def Piece.operand? : Piece → Option String
  | operand name => some name
  | literal _ | separator => none

theorem Piece.operand_eq_some_iff {piece : Piece} {name : String} :
    piece.operand? = some name ↔ piece = .operand name := by
  cases piece <;> simp [operand?]

theorem Element.operand_eq_some_iff {element : Element} {name : String} :
    element.operand? = some name ↔ element = .operand name := by
  cases element <;> simp [operand?]

/-- What becomes of a literal that is put in front of a body. -/
theorem prepend_cases (text : String) (body : List Element) :
    (text = "" ∧ prepend text body = body) ∨
      (text ≠ "" ∧ ∃ next rest, body = .literal next :: rest ∧
        prepend text body = .literal (text ++ next) :: rest) ∨
      (text ≠ "" ∧ (∀ next, body.head? ≠ some (.literal next)) ∧
        prepend text body = .literal text :: body) := by
  by_cases hempty : text = ""
  · exact .inl ⟨hempty, if_pos hempty⟩
  · cases body with
    | nil => exact .inr (.inr ⟨hempty, by simp, if_neg hempty⟩)
    | cons element rest =>
        cases element with
        | literal next => exact .inr (.inl ⟨hempty, next, rest, rfl, if_neg hempty⟩)
        | operand name => exact .inr (.inr ⟨hempty, by simp, if_neg hempty⟩)

theorem prepend_eq_nil_iff {text : String} {body : List Element} :
    prepend text body = [] ↔ text = "" ∧ body = [] := by
  obtain ⟨hempty, h⟩ | ⟨hne, next, rest, rfl, h⟩ | ⟨hne, -, h⟩ := prepend_cases text body
  · rw [h]
    simp [hempty]
  · simp [h]
  · simp [h, hne]

/-- A body has nothing exactly if it is made of nothing but empty literals. -/
theorem body_of_eq_nil_iff {pieces : List Piece} :
    bodyOf pieces = [] ↔ ∀ piece ∈ pieces, piece = .literal "" := by
  induction pieces with
  | nil => simp [bodyOf]
  | cons piece pieces ih =>
      rw [List.forall_mem_cons, ← ih]
      cases piece with
      | literal text => rw [bodyOf, prepend_eq_nil_iff, Piece.literal.injEq]
      | operand name => simp [bodyOf]
      | separator => simp [bodyOf, prepend_eq_nil_iff]

theorem operands_prepend (text : String) (body : List Element) :
    (prepend text body).filterMap Element.operand? = body.filterMap Element.operand? := by
  obtain ⟨-, h⟩ | ⟨-, next, rest, rfl, h⟩ | ⟨-, -, h⟩ := prepend_cases text body
  · rw [h]
  · rw [h]
    rfl
  · rw [h]
    rfl

/-- A body has the operands of the pieces that it is made of, in the same order. -/
theorem operands_body_of (pieces : List Piece) :
    (bodyOf pieces).filterMap Element.operand? = pieces.filterMap Piece.operand? := by
  induction pieces with
  | nil => rfl
  | cons piece pieces ih =>
      cases piece with
      | literal text => exact (operands_prepend text _).trans ih
      | operand name => exact congrArg (name :: ·) ih
      | separator => exact (operands_prepend " " _).trans ih

end DecodeTables.Display
