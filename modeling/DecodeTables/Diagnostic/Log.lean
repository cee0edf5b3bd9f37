import DecodeTables.Diagnostic

/-!
# The diagnostics of a session

A `Log` keeps every reported diagnostic in order, and counts the errors and the warnings among
them as they come in.
-/

namespace DecodeTables

/-- The diagnostics reported so far, oldest first, with how many of them are errors and how many
are warnings. -/
structure Log where
  entries : List Diagnostic := []
  errors : Nat := 0
  warnings : Nat := 0

namespace Log

/-- Adds a diagnostic at the end. -/
def report (log : Log) (diagnostic : Diagnostic) : Log where
  entries := log.entries ++ [diagnostic]
  errors := if diagnostic.severity = .error then log.errors + 1 else log.errors
  warnings := if diagnostic.severity = .warning then log.warnings + 1 else log.warnings

/-- Adds diagnostics at the end, in order. -/
def reportAll (log : Log) (diagnostics : List Diagnostic) : Log :=
  diagnostics.foldl report log

/-- The lines that show all diagnostics. -/
def text (files? : Option SourceFiles) (log : Log) : String :=
  String.join (log.entries.map (Diagnostic.text files?))

end Log

end DecodeTables
