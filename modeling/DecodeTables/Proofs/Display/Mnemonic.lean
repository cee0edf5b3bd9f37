import Mathlib.Data.List.DropRight
import Mathlib.Data.List.TakeWhile
import DecodeTables.Display

/-!
# Where the mnemonic of a display ends

A display as written begins with literals, as many as there are before anything else. `Splits` says
what becomes of them: joined, and without the blanks around them, they are the mnemonic, and a
separator that follows them belongs to neither side. `splits_iff` says that a display is elaborated
in just this way.
-/

namespace DecodeTables

section Run

variable {α : Type _} {holds : α → Bool} {run rest : List α}

theorem false_of_head_drop_while {item : α} (h : (rest.dropWhile holds).head? = some item) :
    holds item = false := by
  have hstop := List.head?_dropWhile_not holds rest
  rw [h] at hstop
  exact hstop

/-- What is behind a run of items that ends there is left when the run is dropped. -/
theorem drop_while_run (hrun : ∀ item ∈ run, holds item = true)
    (hrest : ∀ item, rest.head? = some item → holds item = false) :
    (run ++ rest).dropWhile holds = rest := by
  rw [List.dropWhile_append_of_pos hrun]
  cases rest with
  | nil => rfl
  | cons first rest =>
      exact List.dropWhile_cons_of_neg (Bool.not_eq_true _ ▸ hrest first rfl)

theorem take_while_run (hrun : ∀ item ∈ run, holds item = true)
    (hrest : ∀ item, rest.head? = some item → holds item = false) :
    (run ++ rest).takeWhile holds = run := by
  have hsplit := List.takeWhile_append_dropWhile (p := holds) (l := run ++ rest)
  rw [drop_while_run hrun hrest] at hsplit
  exact List.append_cancel_right hsplit

end Run

/-- A space or a tab. -/
def IsBlank (char : Char) : Prop :=
  char = ' ' ∨ char = '\t'

theorem is_blank_iff {char : Char} : isBlank char = true ↔ IsBlank char := by
  rw [isBlank, IsBlank, Bool.or_eq_true, beq_iff_eq, beq_iff_eq]

/-- Says that a text neither begins nor ends with a blank. -/
structure Trimmed (text : String) : Prop where
  first : ∀ char, text.toList.head? = some char → ¬ IsBlank char
  last : ∀ char, text.toList.getLast? = some char → ¬ IsBlank char

/-- `Trims text core` says that `core` is what is left of a text without the blanks around it. -/
structure Trims (text core : String) : Prop where
  around : ∃ before after : String, text = before ++ core ++ after ∧
    (∀ char ∈ before.toList, IsBlank char) ∧ ∀ char ∈ after.toList, IsBlank char
  trimmed : Trimmed core

/-- Blanks around characters that neither begin nor end with one are taken away. -/
theorem trim_chars_around {before core after : List Char}
    (hbefore : ∀ char ∈ before, isBlank char = true) (hafter : ∀ char ∈ after, isBlank char = true)
    (hfirst : ∀ char, core.head? = some char → isBlank char = false)
    (hlast : ∀ char, core.getLast? = some char → isBlank char = false) :
    trimChars (before ++ core ++ after) = core := by
  cases core with
  | nil =>
      have hnothing : (before ++ [] ++ after).dropWhile isBlank = [] := by
        refine List.dropWhile_eq_nil_iff.2 fun char hchar => ?_
        rw [List.append_nil, List.mem_append] at hchar
        exact hchar.elim (hbefore char) (hafter char)
      rw [trimChars, hnothing]
      rfl
  | cons first core =>
      have hstart : (before ++ (first :: core ++ after)).dropWhile isBlank =
          first :: core ++ after := drop_while_run hbefore hfirst
      have hstop : (after.reverse ++ (first :: core).reverse).dropWhile isBlank =
          (first :: core).reverse := by
        refine drop_while_run (fun char hchar => hafter char (List.mem_reverse.1 hchar)) ?_
        rw [List.head?_reverse]
        exact hlast
      rw [List.append_assoc, trimChars, hstart, List.reverse_append, hstop, List.reverse_reverse]

theorem not_is_blank_iff {char : Char} : ¬ IsBlank char ↔ isBlank char = false := by
  rw [← is_blank_iff, Bool.not_eq_true]

theorem all_is_blank_iff {chars : List Char} :
    (∀ char ∈ chars, isBlank char = true) ↔ ∀ char ∈ chars, IsBlank char := by
  simp only [is_blank_iff]

theorem trim_blanks_of_trims {text core : String} (h : Trims text core) :
    trimBlanks text = core := by
  obtain ⟨⟨before, after, rfl, hbefore, hafter⟩, hfirst, hlast⟩ := h
  rw [trimBlanks, String.toList_append, String.toList_append,
    trim_chars_around (all_is_blank_iff.2 hbefore) (all_is_blank_iff.2 hafter),
    String.ofList_toList]
  · exact fun char hchar => not_is_blank_iff.1 (hfirst char hchar)
  · exact fun char hchar => not_is_blank_iff.1 (hlast char hchar)

/-- Once the blanks at the beginning are dropped, only the blanks at the end are still to go. -/
theorem trim_chars_append (chars : List Char) :
    trimChars chars ++ (chars.dropWhile isBlank).rtakeWhile isBlank = chars.dropWhile isBlank :=
  List.rdropWhile_append_rtakeWhile

/-- Only blanks are taken away, at the two ends of the characters. -/
theorem exists_around_trim_chars (chars : List Char) :
    ∃ before after, chars = before ++ trimChars chars ++ after ∧
      (∀ char ∈ before, isBlank char = true) ∧ ∀ char ∈ after, isBlank char = true := by
  refine ⟨chars.takeWhile isBlank, (chars.dropWhile isBlank).rtakeWhile isBlank, ?_, ?_, ?_⟩
  · rw [List.append_assoc, trim_chars_append, List.takeWhile_append_dropWhile]
  · exact fun char hchar => List.mem_takeWhile_imp hchar
  · exact fun char hchar => List.mem_rtakeWhile_imp hchar

/-- No blank is left at the beginning. -/
theorem false_of_head_trim_chars {chars : List Char} {char : Char}
    (h : (trimChars chars).head? = some char) : isBlank char = false := by
  have hfirst : (chars.dropWhile isBlank).head? = some char := by
    rw [← trim_chars_append, List.head?_append, h]
    rfl
  exact false_of_head_drop_while hfirst

/-- No blank is left at the end. -/
theorem false_of_last_trim_chars {chars : List Char} {char : Char}
    (h : (trimChars chars).getLast? = some char) : isBlank char = false := by
  rw [trimChars, List.getLast?_reverse] at h
  exact false_of_head_drop_while h

theorem trims_trim_blanks (text : String) : Trims text (trimBlanks text) := by
  obtain ⟨before, after, htext, hbefore, hafter⟩ := exists_around_trim_chars text.toList
  refine ⟨⟨.ofList before, .ofList after, ?_, ?_, ?_⟩, ?_, ?_⟩
  · rw [trimBlanks, ← String.ofList_append, ← String.ofList_append, ← htext, String.ofList_toList]
  · rw [String.toList_ofList]
    exact all_is_blank_iff.1 hbefore
  · rw [String.toList_ofList]
    exact all_is_blank_iff.1 hafter
  · intro char hchar
    rw [trimBlanks, String.toList_ofList] at hchar
    exact not_is_blank_iff.2 (false_of_head_trim_chars hchar)
  · intro char hchar
    rw [trimBlanks, String.toList_ofList] at hchar
    exact not_is_blank_iff.2 (false_of_last_trim_chars hchar)

/-- A text without the blanks around it is what trimming leaves. -/
theorem trims_iff {text core : String} : Trims text core ↔ trimBlanks text = core := by
  refine ⟨trim_blanks_of_trims, ?_⟩
  rintro rfl
  exact trims_trim_blanks text

namespace Display

/-- `Splits written mnemonic rest` says that a display as written begins with literals that make up
`mnemonic`, and that `rest` comes behind them and the separator that may end them. -/
def Splits (written : Written) (mnemonic : String) (rest : List Piece) : Prop :=
  ∃ (literals : List String) (remaining : List Piece),
    written = literals.map Piece.literal ++ remaining ∧
      (∀ text, remaining.head? ≠ some (.literal text)) ∧
      Trims (String.join literals) mnemonic ∧
      (remaining = .separator :: rest ∨ remaining.head? ≠ some .separator ∧ remaining = rest)

/-- Pieces that are all literals are known by their texts. -/
theorem exists_literals {pieces : List Piece}
    (h : ∀ piece ∈ pieces, piece.literal?.isSome = true) :
    ∃ literals : List String, pieces = literals.map Piece.literal := by
  induction pieces with
  | nil => exact ⟨[], rfl⟩
  | cons piece pieces ih =>
      obtain ⟨hpiece, hpieces⟩ := List.forall_mem_cons.1 h
      obtain ⟨literals, rfl⟩ := ih hpieces
      cases piece with
      | literal text => exact ⟨text :: literals, rfl⟩
      | operand | separator => cases hpiece

/-- The literals that a display begins with, and what is behind them, if that does not go on with a
literal. -/
theorem literals_run {literals : List String} {remaining : List Piece}
    (h : ∀ text, remaining.head? ≠ some (.literal text)) :
    (literals.map Piece.literal ++ remaining).takeWhile (·.literal?.isSome) =
        literals.map Piece.literal ∧
      (literals.map Piece.literal ++ remaining).dropWhile (·.literal?.isSome) = remaining := by
  have hrun : ∀ piece ∈ literals.map Piece.literal, piece.literal?.isSome = true := by
    simp [Piece.literal?]
  have hrest : ∀ piece, remaining.head? = some piece → piece.literal?.isSome = false := by
    intro piece hpiece
    cases piece with
    | literal text => exact absurd hpiece (h text)
    | operand | separator => rfl
  exact ⟨take_while_run hrun hrest, drop_while_run hrun hrest⟩

theorem texts_literals (literals : List String) :
    (literals.map Piece.literal).filterMap Piece.literal? = literals := by
  rw [List.filterMap_map]
  exact List.filterMap_some

theorem after_head_eq_iff {written : Written} {remaining rest : List Piece}
    (h : written.dropWhile (·.literal?.isSome) = remaining) :
    afterHead written = rest ↔
      remaining = .separator :: rest ∨
        remaining.head? ≠ some .separator ∧ remaining = rest := by
  rw [afterHead, h]
  split
  · simp
  · next hother =>
      have hhead : remaining.head? ≠ some .separator := by
        intro hhead
        obtain ⟨tail, htail⟩ := List.head?_eq_some_iff.1 hhead
        exact hother tail htail
      refine ⟨fun hrest => .inr ⟨hhead, hrest⟩, ?_⟩
      rintro (rfl | ⟨-, hrest⟩)
      · exact absurd rfl hhead
      · exact hrest

/-- A display is elaborated into the mnemonic on one side and the rest on the other. -/
theorem splits_iff {written : Written} {mnemonic : String} {rest : List Piece} :
    Splits written mnemonic rest ↔
      (elaborate written).mnemonic = mnemonic ∧ afterHead written = rest := by
  refine ⟨?_, ?_⟩
  · rintro ⟨literals, remaining, rfl, hremaining, htrims, hrest⟩
    obtain ⟨htake, hdrop⟩ := @literals_run literals remaining hremaining
    refine ⟨?_, (after_head_eq_iff hdrop).2 hrest⟩
    rw [elaborate, head, htake, texts_literals]
    exact trims_iff.1 htrims
  · rintro ⟨rfl, hrest⟩
    have htake : ∀ piece ∈ written.takeWhile (·.literal?.isSome),
        piece.literal?.isSome = true := by
      intro piece hpiece
      exact List.mem_takeWhile_imp (p := fun piece : Piece => piece.literal?.isSome) hpiece
    obtain ⟨literals, hliterals⟩ := exists_literals htake
    refine ⟨literals, written.dropWhile (·.literal?.isSome), ?_, ?_, ?_, ?_⟩
    · rw [← hliterals, List.takeWhile_append_dropWhile]
    · intro text htext
      cases false_of_head_drop_while htext
    · rw [elaborate, head, hliterals, texts_literals]
      exact trims_iff.2 rfl
    · exact (after_head_eq_iff rfl).1 hrest

/-- So every display as written splits in some way. -/
theorem splits_elaborate (written : Written) :
    Splits written (elaborate written).mnemonic (afterHead written) :=
  splits_iff.2 ⟨rfl, rfl⟩

end Display

end DecodeTables
