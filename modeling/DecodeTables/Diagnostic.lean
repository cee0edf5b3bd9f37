import DecodeTables.Location
import DecodeTables.Source.Files

/-!
# Diagnostics

A `Diagnostic` is a message about a place in a specification. Its text is one line, which begins
with the place when the path of the file is known.
-/

namespace DecodeTables

/-- How grave a diagnostic is. -/
inductive Severity where
  | note
  | warning
  | error
deriving DecidableEq, Repr

/-- The word for a severity in the text of a diagnostic. -/
def Severity.text : Severity → String
  | note => "note"
  | warning => "warning"
  | error => "error"

/-- A message of some severity about the place `loc`. -/
structure Diagnostic where
  severity : Severity
  message : String
  loc : Location := .unknown
deriving DecidableEq, Repr

namespace Diagnostic

/-- An error with the given message at `loc`. -/
def error (loc : Location) (message : String) : Diagnostic :=
  ⟨.error, message, loc⟩

/-- The place of a diagnostic as its text begins with it: the path, the line, and the column. It is
empty where `files` has no path for the place. -/
def place (files : SourceFiles) (loc : Location) : String :=
  match files.path? loc.file with
  | some path => if path = "" then "" else s!"{path}{loc.lineText}: "
  | none => ""

/-- The line that shows a diagnostic, with its place when the files are at hand. -/
def text (files? : Option SourceFiles) (diagnostic : Diagnostic) : String :=
  let place := (files?.map fun files => place files diagnostic.loc).getD ""
  s!"{place}{diagnostic.severity.text}: {diagnostic.message}\n"

end Diagnostic

end DecodeTables
