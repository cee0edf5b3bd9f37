/-!
# Blanks around texts

Blanks are spaces and tabs; no other character counts as one.
-/

namespace DecodeTables

/-- Says whether a character is a space or a tab. -/
def isBlank (char : Char) : Bool :=
  char == ' ' || char == '\t'

/-- Characters without the blanks at their beginning and at their end. -/
def trimChars (chars : List Char) : List Char :=
  ((chars.dropWhile isBlank).reverse.dropWhile isBlank).reverse

/-- A text without the blanks at its beginning and at its end. -/
def trimBlanks (text : String) : String :=
  String.ofList (trimChars text.toList)

end DecodeTables
