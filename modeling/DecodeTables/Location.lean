/-!
# Places in the files of a specification

A `Location` names a file by its number, and a line and a column in it. Each of the three is zero
when it is not known. `Location.text` shows a location without the path of its file.
-/

namespace DecodeTables

/-- A place in a specification. A component is zero when it is not known. -/
structure Location where
  file : Nat := 0
  line : Nat := 0
  column : Nat := 0
deriving DecidableEq, Repr

namespace Location

/-- The location of something that has no place in any file. -/
def unknown : Location := {}

/-- Says whether the file is known. -/
def isKnown (loc : Location) : Bool :=
  loc.file != 0

/-- Says whether the line is known. -/
def hasLine (loc : Location) : Bool :=
  loc.line != 0

/-- Says whether the column is known. -/
def hasColumn (loc : Location) : Bool :=
  loc.column != 0

/-- `own.orElse outer` locates a part of something at `outer`: at its own place when that is
known, and otherwise at the place of the whole. -/
def orElse (own outer : Location) : Location :=
  if own.isKnown then own else outer

/-- The line and the column, each after a colon. A column is shown only after a line. -/
def lineText (loc : Location) : String :=
  if loc.hasLine then
    if loc.hasColumn then s!":{loc.line}:{loc.column}" else s!":{loc.line}"
  else ""

/-- The text of a location where no path is at hand, so that the file is shown by its number. -/
def text (loc : Location) : String :=
  if loc.isKnown then s!"file#{loc.file}{loc.lineText}" else "<unknown>"

end Location

end DecodeTables
