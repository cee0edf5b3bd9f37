/-!
# Names of tables

The name of a table is a letter, `_` or `.`, followed by letters, digits, `_` and `.`; letters and
digits are those of ASCII.
-/

namespace DecodeTables.Table

/-- Says whether a name may begin with a character. -/
def startsName (char : Char) : Bool :=
  char.isAlpha || char == '_' || char == '.'

/-- Says whether a name may go on with a character. -/
def continuesName (char : Char) : Bool :=
  char.isAlphanum || char == '_' || char == '.'

/-- Says whether a text is the name of a table. -/
def isValidName (name : String) : Bool :=
  match name.toList with
  | [] => false
  | first :: rest => startsName first && rest.all continuesName

end DecodeTables.Table
