import DecodeTables.Constructor

/-!
# What the elaboration of a constructor comes to

A constructor is elaborated exactly if its pattern is, `elaborate_eq_ok_iff`, and what it then
exports and builds can be read off the constructor as written, `exported_of_elaborate` and
`builds_of_elaborate`.
-/

namespace DecodeTables

namespace Pattern

/-- Says whether a pattern as written at `loc` has no fault. -/
def isSound (written : Written) (loc : Location) : Bool :=
  (elaborate written loc).isOk

end Pattern

namespace Constructor

/-- What a constructor as written exports: nothing without a semantic part or without an export
statement. -/
def Written.exported (written : Written) : Export :=
  ((written.execution?.bind (·.exportStatement?)).map (·.exported)).getD .none

/-- The constructor at `loc` whose pattern has been elaborated already. -/
def withPattern (written : Written) (loc : Location) (pattern : Pattern) : Constructor where
  loc := loc
  pattern := pattern
  display := .elaborate written.display
  disassembly := .elaborate written.disassembly
  execution? := written.execution?.map Execution.elaborate

/-- Only the pattern decides whether a constructor is rejected. -/
theorem elaborate_eq (written : Written) (loc : Location) :
    elaborate written loc =
      match Pattern.elaborate written.pattern loc with
      | .ok pattern => .ok (withPattern written loc pattern)
      | .error fault => .error ⟨loc, .pattern fault⟩ := by
  unfold elaborate
  cases Pattern.elaborate written.pattern loc <;> rfl

/-- A constructor is elaborated exactly if its pattern is. -/
theorem elaborate_eq_ok_iff {written : Written} {loc : Location} {constructor : Constructor} :
    elaborate written loc = .ok constructor ↔
      ∃ pattern, Pattern.elaborate written.pattern loc = .ok pattern ∧
        constructor = withPattern written loc pattern := by
  rw [elaborate_eq]
  cases Pattern.elaborate written.pattern loc with
  | error fault => simp
  | ok pattern => simp [eq_comm]

/-- The elaborated constructor, unless its pattern is at fault. -/
def elaborate? (written : Written) (loc : Location) : Option Constructor :=
  (elaborate written loc).toOption

theorem elaborate_some_iff {written : Written} {loc : Location} {constructor : Constructor} :
    elaborate? written loc = some constructor ↔ elaborate written loc = .ok constructor := by
  unfold elaborate?
  cases elaborate written loc <;> simp [Except.toOption]

/-- There is an elaborated constructor exactly if the pattern has no fault. -/
theorem elaborate_is_some (written : Written) (loc : Location) :
    (elaborate? written loc).isSome = Pattern.isSound written.pattern loc := by
  rw [elaborate?, elaborate_eq, Pattern.isSound]
  cases Pattern.elaborate written.pattern loc <;> rfl

/-- An elaborated constructor exports what it exports as written. -/
theorem exported_of_elaborate {written : Written} {loc : Location} {constructor : Constructor}
    (h : elaborate written loc = .ok constructor) :
    constructor.exported = written.exported := by
  obtain ⟨pattern, _, rfl⟩ := elaborate_eq_ok_iff.1 h
  simp only [exported, withPattern, Written.exported]
  cases written.execution? with
  | none => rfl
  | some execution => cases hstatement : execution.exportStatement? <;>
      simp [Execution.elaborate, hstatement]

/-- An elaborated constructor is at the place where it was written. -/
theorem loc_of_elaborate {written : Written} {loc : Location} {constructor : Constructor}
    (h : elaborate written loc = .ok constructor) : constructor.loc = loc := by
  obtain ⟨pattern, _, rfl⟩ := elaborate_eq_ok_iff.1 h
  rfl

/-- The targets of the `build` statements of a constructor as written. -/
def Written.built (written : Written) : List String :=
  (written.execution?.map fun execution =>
    execution.statements.filterMap Execution.Statement.built?).getD []

/-- An elaborated constructor builds what it builds as written, each operand once and in order of
first use. -/
theorem builds_of_elaborate {written : Written} {loc : Location} {constructor : Constructor}
    (h : elaborate written loc = .ok constructor) :
    constructor.builds = firstUses written.built := by
  obtain ⟨pattern, _, rfl⟩ := elaborate_eq_ok_iff.1 h
  simp only [builds, withPattern, Written.built]
  cases written.execution? <;> rfl

end Constructor

end DecodeTables
