import DecodeTables.Diagnostic.Log

/-!
# What reports add to a log

Reporting diagnostics adds them at the end, in order, and counts the errors and the warnings among
them. So the counts of a log are always those of its entries: such a log is `Counted`.
-/

namespace DecodeTables.Log

/-- The number of diagnostics of some severity. -/
def countOf (severity : Severity) (diagnostics : List Diagnostic) : Nat :=
  diagnostics.countP fun diagnostic => diagnostic.severity = severity

theorem entries_report_all (log : Log) (diagnostics : List Diagnostic) :
    (log.reportAll diagnostics).entries = log.entries ++ diagnostics := by
  induction diagnostics generalizing log with
  | nil => exact (List.append_nil _).symm
  | cons diagnostic diagnostics ih =>
      show ((log.report diagnostic).reportAll diagnostics).entries = _
      rw [ih]
      simp [report]

/-- An error adds to the count of errors, and nothing else does. -/
theorem errors_report (log : Log) (diagnostic : Diagnostic) :
    (log.report diagnostic).errors = log.errors + countOf .error [diagnostic] := by
  simp only [report, countOf, List.countP_singleton, decide_eq_true_eq]
  split <;> rfl

/-- A warning adds to the count of warnings, and nothing else does. -/
theorem warnings_report (log : Log) (diagnostic : Diagnostic) :
    (log.report diagnostic).warnings = log.warnings + countOf .warning [diagnostic] := by
  simp only [report, countOf, List.countP_singleton, decide_eq_true_eq]
  split <;> rfl

theorem count_of_append (severity : Severity) (first second : List Diagnostic) :
    countOf severity (first ++ second) = countOf severity first + countOf severity second :=
  List.countP_append

theorem errors_report_all (log : Log) (diagnostics : List Diagnostic) :
    (log.reportAll diagnostics).errors = log.errors + countOf .error diagnostics := by
  induction diagnostics generalizing log with
  | nil => rfl
  | cons diagnostic diagnostics ih =>
      show ((log.report diagnostic).reportAll diagnostics).errors = _
      rw [ih, errors_report, Nat.add_assoc, ← count_of_append]
      rfl

/-- The counts of a log are those of its entries. -/
structure Counted (log : Log) : Prop where
  errors : log.errors = countOf .error log.entries
  warnings : log.warnings = countOf .warning log.entries

namespace Counted

variable {log : Log}

theorem report (h : log.Counted) (diagnostic : Diagnostic) : (log.report diagnostic).Counted where
  errors := by
    rw [errors_report, h.errors, ← count_of_append]
    rfl
  warnings := by
    rw [warnings_report, h.warnings, ← count_of_append]
    rfl

theorem report_all (h : log.Counted) (diagnostics : List Diagnostic) :
    (log.reportAll diagnostics).Counted := by
  induction diagnostics generalizing log with
  | nil => exact h
  | cons diagnostic diagnostics ih => exact ih (h.report diagnostic)

/-- No error is counted exactly if there is none. -/
theorem errors_eq_zero_iff (h : log.Counted) :
    log.errors = 0 ↔ ∀ diagnostic ∈ log.entries, diagnostic.severity ≠ .error := by
  rw [h.errors, countOf, List.countP_eq_zero]
  simp only [decide_eq_true_eq, ne_eq]

end Counted

/-- Where all reports are errors, all of them are counted. -/
theorem count_errors {diagnostics : List Diagnostic}
    (h : ∀ diagnostic ∈ diagnostics, diagnostic.severity = .error) :
    countOf .error diagnostics = diagnostics.length := by
  rw [countOf, List.countP_eq_length]
  intro diagnostic hmem
  exact decide_eq_true (h diagnostic hmem)

end DecodeTables.Log
