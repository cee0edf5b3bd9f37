/-!
# Texts that join parts

Parts that are joined by a character can be read back from the joined text if they are `Separable`:
there are some, and none of them has this character. So the texts of separable parts are the same
only if the parts are, `intercalate_inj`. Numbers can be joined by any character that is no digit,
`is_digit_of_mem_text`, and are told by their texts, `text_of_number_inj`.
-/

namespace DecodeTables

variable {char : Char}

/-- What it takes to read back parts that are joined by `char`. -/
structure Separable (char : Char) (parts : List String) : Prop where
  ne_nil : parts ≠ []
  free : ∀ part ∈ parts, char ∉ part.toList

/-- Texts that join separable parts are the same exactly if the parts are. -/
theorem intercalate_inj {first second : List String} (hfirst : Separable char first)
    (hsecond : Separable char second) :
    (String.singleton char).intercalate first = (String.singleton char).intercalate second ↔
      first = second := by
  refine ⟨?_, congrArg _⟩
  intro hsame
  have hsplit := String.toList_split_intercalate hfirst.free
  rw [hsame, String.toList_split_intercalate hsecond.free, if_neg hsecond.ne_nil,
    if_neg hfirst.ne_nil] at hsplit
  exact hsplit.symm

/-- A joined text has nothing but its parts and what joins them. -/
theorem mem_of_mem_intercalate {separator : String} {parts : List String}
    (hmem : char ∈ (separator.intercalate parts).toList) :
    char ∈ separator.toList ∨ ∃ part ∈ parts, char ∈ part.toList := by
  induction parts with
  | nil =>
      rw [String.intercalate_nil] at hmem
      cases hmem
  | cons part rest ih =>
      by_cases hrest : rest = []
      · rw [hrest, String.intercalate_singleton] at hmem
        exact .inr ⟨part, List.mem_cons_self, hmem⟩
      · rw [String.intercalate_cons_of_ne_nil hrest, String.toList_append, String.toList_append,
          List.mem_append, List.mem_append] at hmem
        obtain (hpart | hseparator) | hmem := hmem
        · exact .inr ⟨part, List.mem_cons_self, hpart⟩
        · exact .inl hseparator
        · obtain hseparator | ⟨other, hother, hchar⟩ := ih hmem
          · exact .inl hseparator
          · exact .inr ⟨other, List.mem_cons_of_mem _ hother, hchar⟩

/-- The text of a number is made of its decimal digits. -/
theorem to_list_text (number : Nat) : (toString number).toList = Nat.toDigits 10 number := by
  rw [Nat.toString_eq_repr, Nat.toList_repr]

/-- The text of a number has nothing but digits. -/
theorem is_digit_of_mem_text {number : Nat} (hmem : char ∈ (toString number).toList) :
    char.isDigit = true := by
  rw [to_list_text] at hmem
  exact Nat.isDigit_of_mem_toDigits (by decide) (by decide) hmem

/-- A number can be read back from its text. -/
theorem of_digits_text (number : Nat) :
    Nat.ofDigitChars 10 (toString number).toList 0 = number := by
  rw [to_list_text, Nat.ofDigitChars_ten_toDigits]

/-- Numbers have the same text only if they are the same. -/
theorem text_of_number_inj {number other : Nat} :
    toString number = toString other ↔ number = other := by
  refine ⟨?_, congrArg _⟩
  intro hsame
  rw [← of_digits_text number, hsame, of_digits_text]

end DecodeTables
