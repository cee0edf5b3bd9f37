import DecodeTables.Proofs.Table.Batch

/-!
# Names of tables

`is_valid_name_iff` says which texts are names of tables, in terms of the characters themselves. A
table whose name is not one of them rejects every constructor, `register_of_not_name`.
-/

namespace DecodeTables.Table

/-- A letter of ASCII. -/
def IsLetter (char : Char) : Prop :=
  'a' ≤ char ∧ char ≤ 'z' ∨ 'A' ≤ char ∧ char ≤ 'Z'

/-- A digit of ASCII. -/
def IsDigit (char : Char) : Prop :=
  '0' ≤ char ∧ char ≤ '9'

/-- A text that is a letter, `_` or `.`, followed by letters, digits, `_` and `.` in any number. -/
def IsName (name : String) : Prop :=
  ∃ first rest, name.toList = first :: rest ∧ (IsLetter first ∨ first = '_' ∨ first = '.') ∧
    ∀ char ∈ rest, IsLetter char ∨ IsDigit char ∨ char = '_' ∨ char = '.'

theorem is_alpha_iff {char : Char} : char.isAlpha = true ↔ IsLetter char := by
  have hupper : char.isUpper = true ↔ 'A' ≤ char ∧ char ≤ 'Z' := decide_eq_true_iff
  have hlower : char.isLower = (decide ('a' ≤ char) && decide (char ≤ 'z')) := rfl
  have halpha : char.isAlpha = (char.isUpper || char.isLower) := rfl
  rw [halpha, Bool.or_eq_true, hupper, hlower, Bool.and_eq_true, decide_eq_true_iff,
    decide_eq_true_iff]
  exact or_comm

theorem is_alphanum_iff {char : Char} :
    char.isAlphanum = true ↔ IsLetter char ∨ IsDigit char := by
  have hdigit : char.isDigit = (decide ('0' ≤ char) && decide (char ≤ '9')) := rfl
  have halphanum : char.isAlphanum = (char.isAlpha || char.isDigit) := rfl
  rw [halphanum, Bool.or_eq_true, is_alpha_iff, hdigit, Bool.and_eq_true, decide_eq_true_iff,
    decide_eq_true_iff]
  rfl

/-- The texts that can be names of tables. -/
theorem is_valid_name_iff {name : String} : isValidName name = true ↔ IsName name := by
  rw [isValidName, IsName]
  cases name.toList with
  | nil => simp
  | cons first rest =>
      simp only [startsName, continuesName, Bool.and_eq_true, Bool.or_eq_true, List.all_eq_true,
        is_alpha_iff, is_alphanum_iff, beq_iff_eq, or_assoc]
      constructor
      · intro hchars
        exact ⟨first, rest, rfl, hchars⟩
      · rintro ⟨_, _, hname, hchars⟩
        obtain ⟨rfl, rfl⟩ := List.cons.inj hname
        exact hchars

instance (name : String) : Decidable (IsName name) :=
  decidable_of_iff (isValidName name = true) is_valid_name_iff

example : IsName "._9" ∧ ¬ IsName "" ∧ ¬ IsName "9" ∧ ¬ IsName "a\x00" ∧ ¬ IsName "é" := by
  decide

/-- A table without such a name rejects every constructor. -/
theorem register_of_not_name {table : Table} (hname : ¬ IsName table.name)
    (written : Constructor.Written) (loc : Location) :
    table.register written loc = .error ⟨loc, .invalidTableName table.name⟩ :=
  register_of_invalid_name (Bool.eq_false_iff.2 (mt is_valid_name_iff.1 hname)) written loc

/-- So it stays as it is. -/
theorem after_of_not_name {table : Table} (hname : ¬ IsName table.name) (request : Request) :
    table.after request = table := by
  refine after_of_rejects ?_
  rw [accepts, Bool.eq_false_iff.2 (mt is_valid_name_iff.1 hname), Bool.false_and, Bool.false_and]

end DecodeTables.Table
