import DecodeTables.Proofs.Export.LeastCover
import DecodeTables.Proofs.Table.Name

/-!
# What decides a registration

Three things can be wrong with a constructor that is to be registered: its table has no valid name,
its pattern has a fault, or nothing covers its export and that of the table. `Decision` is the rule
that says which of them counts when there are several, what the rejection tells, and what the table
is afterwards. `attempt_decides` says that an attempt always follows this rule, that a rejection is
at the place of the constructor and leaves the table alone, and that the display, the disassembly
actions and the semantic part of a constructor are never the reason.
-/

namespace DecodeTables

/-- Says that a constructor is at `place` and is what its four parts as written come to there. -/
structure Constructor.ElaboratedFrom (constructor : Constructor) (written : Constructor.Written)
    (place : Location) : Prop where
  loc : constructor.loc = place
  pattern : Pattern.elaborate written.pattern place = .ok constructor.pattern
  display : constructor.display = .elaborate written.display
  disassembly : constructor.disassembly = .elaborate written.disassembly
  execution : constructor.execution? = written.execution?.map .elaborate

theorem Constructor.elaborated_from_iff {constructor : Constructor}
    {written : Constructor.Written} {loc : Location} :
    constructor.ElaboratedFrom written loc ↔ elaborate written loc = .ok constructor := by
  rw [elaborate_eq_ok_iff]
  refine ⟨?_, ?_⟩
  · rintro ⟨rfl, hpattern, hdisplay, hdisassembly, hexecution⟩
    refine ⟨constructor.pattern, hpattern, ?_⟩
    rw [withPattern, ← hdisplay, ← hdisassembly, ← hexecution]
  · rintro ⟨pattern, hpattern, rfl⟩
    exact ⟨rfl, hpattern, rfl, rfl, rfl⟩

namespace Table

/-- `table.JoinsTo incoming whole` says that `whole` is what a table exports once it has one more
constructor, which exports `incoming`. The first constructor brings its own export. After that it is
the least export that covers both, if anything does. -/
def JoinsTo (table : Table) (incoming whole : Export) : Prop :=
  if table.constructors = [] then whole = incoming else IsLUB {table.exported, incoming} whole

/-- `Decision table written loc outcome after` says what is to come of an attempt to register a
constructor at `loc`, and what the table is afterwards. -/
inductive Decision (table : Table) (written : Constructor.Written) (loc : Location) :
    Except Rejection Unit → Table → Prop where
  | invalidName : ¬ IsName table.name →
      Decision table written loc (.error ⟨loc, .invalidTableName table.name⟩) table
  | patternFault {fault} : IsName table.name →
      Pattern.elaborate written.pattern loc = .error fault →
      Decision table written loc (.error ⟨loc, .pattern fault⟩) table
  | exportMismatch {constructor : Constructor} : IsName table.name →
      constructor.ElaboratedFrom written loc →
      (∀ whole, ¬ table.JoinsTo constructor.exported whole) →
      Decision table written loc
        (.error ⟨loc, .exportMismatch ⟨table.exported, constructor.exported⟩⟩) table
  | registered {constructor : Constructor} {whole : Export} : IsName table.name →
      constructor.ElaboratedFrom written loc → table.JoinsTo constructor.exported whole →
      Decision table written loc (.ok ())
        { table with constructors := table.constructors ++ [constructor], exported := whole }

variable {table : Table} {written : Constructor.Written} {loc : Location}

/-- An export fits a table exactly if there is something for the table to export then, and that is
what a table that grows exports. -/
theorem joins_to_iff {constructor : Constructor} {whole : Export} :
    table.JoinsTo constructor.exported whole ↔
      table.fits constructor.exported = true ∧ whole = (table.grow constructor).exported := by
  rw [JoinsTo, fits, grow, isEmpty]
  cases table.constructors with
  | nil => simp
  | cons first rest =>
      simp only [reduceCtorEq, ↓reduceIte, List.isEmpty_cons, Bool.false_or, decide_eq_true_eq,
        Bool.false_eq_true]
      refine ⟨?_, ?_⟩
      · intro hwhole
        have hwidth := Export.bdd_above_pair_iff.1 hwhole.bddAbove
        exact ⟨hwidth, hwhole.unique (Export.is_lub_join hwidth)⟩
      · rintro ⟨hwidth, rfl⟩
        exact Export.is_lub_join hwidth

theorem attempt_of_register_error {rejection : Rejection}
    (h : table.register written loc = .error rejection) (traceAll : Bool) :
    (table.attempt traceAll written loc).outcome = .error rejection ∧
      (table.attempt traceAll written loc).table = table := by
  simp only [attempt, h]
  exact ⟨rfl, rfl⟩

theorem attempt_of_register_ok {grown : Table} (h : table.register written loc = .ok grown)
    (traceAll : Bool) :
    (table.attempt traceAll written loc).outcome = .ok () ∧
      (table.attempt traceAll written loc).table = grown := by
  simp only [attempt, h]
  exact ⟨rfl, rfl⟩

/-- What is to come of an attempt comes of it. -/
theorem attempt_of_decision {outcome : Except Rejection Unit} {after : Table}
    (h : Decision table written loc outcome after) (traceAll : Bool) :
    (table.attempt traceAll written loc).outcome = outcome ∧
      (table.attempt traceAll written loc).table = after := by
  cases h with
  | invalidName hname =>
      exact attempt_of_register_error (register_of_not_name hname written loc) traceAll
  | @patternFault fault hname hfault =>
      have hrejected : Constructor.elaborate written loc = .error ⟨loc, .pattern fault⟩ := by
        rw [Constructor.elaborate_eq, hfault]
      exact attempt_of_register_error
        (register_of_fault (is_valid_name_iff.2 hname) hrejected) traceAll
  | @exportMismatch constructor hname hconstructor hnone =>
      have hfits : table.fits constructor.exported = false := by
        rw [← Bool.not_eq_true]
        intro hfits
        exact hnone _ (joins_to_iff.2 ⟨hfits, rfl⟩)
      refine attempt_of_register_error ?_ traceAll
      rw [register_of_elaborate (is_valid_name_iff.2 hname)
        (Constructor.elaborated_from_iff.1 hconstructor), hfits]
      rfl
  | @registered constructor whole hname hconstructor hwhole =>
      obtain ⟨hfits, rfl⟩ := joins_to_iff.1 hwhole
      refine attempt_of_register_ok ?_ traceAll
      rw [register_of_elaborate (is_valid_name_iff.2 hname)
        (Constructor.elaborated_from_iff.1 hconstructor), hfits]
      rfl

/-- One of the cases of the rule applies to every attempt. -/
theorem exists_decision (table : Table) (written : Constructor.Written) (loc : Location) :
    ∃ outcome after, Decision table written loc outcome after := by
  by_cases hname : IsName table.name
  · cases hpattern : Pattern.elaborate written.pattern loc with
    | error fault => exact ⟨_, _, .patternFault hname hpattern⟩
    | ok pattern =>
        have hconstructor : (Constructor.withPattern written loc pattern).ElaboratedFrom
            written loc := ⟨rfl, hpattern, rfl, rfl, rfl⟩
        by_cases hwhole : ∃ whole,
            table.JoinsTo (Constructor.withPattern written loc pattern).exported whole
        · obtain ⟨whole, hwhole⟩ := hwhole
          exact ⟨_, _, .registered hname hconstructor hwhole⟩
        · exact ⟨_, _, .exportMismatch hname hconstructor (not_exists.1 hwhole)⟩
  · exact ⟨_, _, .invalidName hname⟩

/-- So an attempt follows the rule. -/
theorem decision_attempt (traceAll : Bool) (table : Table) (written : Constructor.Written)
    (loc : Location) :
    Decision table written loc (table.attempt traceAll written loc).outcome
      (table.attempt traceAll written loc).table := by
  obtain ⟨outcome, after, h⟩ := exists_decision table written loc
  obtain ⟨houtcome, hafter⟩ := attempt_of_decision h traceAll
  rw [houtcome, hafter]
  exact h

end Table

/-- Says that a rejection is about a part of the constructor other than its pattern. -/
def Rejection.Cause.IsOfOtherPart : Rejection.Cause → Prop
  | .disassembly _ | .display _ | .execution _ => True
  | .invalidTableName _ | .exportMismatch _ | .pattern _ => False

namespace Table

/-- A rejection leaves the table alone. It is at the place of the constructor and about its table,
its export or its pattern. -/
theorem Decision.of_error {table after : Table} {written : Constructor.Written} {loc : Location}
    {rejection : Rejection} (h : Decision table written loc (.error rejection) after) :
    after = table ∧ rejection.loc = loc ∧ ¬ rejection.cause.IsOfOtherPart := by
  cases h with
  | invalidName | patternFault | exportMismatch => exact ⟨rfl, rfl, not_false⟩

/-- The other parts of a constructor are not the reason for any rejection in a sequence of
attempts. -/
theorem not_of_other_part (traceAll : Bool) {table : Table} {requests : List Request}
    {rejection : Rejection} (h : .error rejection ∈ (table.attemptAll traceAll requests).2) :
    ¬ rejection.cause.IsOfOtherPart := by
  induction requests generalizing table with
  | nil => cases h
  | cons request requests ih =>
      rcases List.mem_cons.1 h with hfirst | hlater
      · have hdecision := decision_attempt traceAll table request.written request.loc
        rw [← hfirst] at hdecision
        exact hdecision.of_error.2.2
      · exact ih hlater

/-- What comes of an attempt to register a constructor, and the table afterwards, are what the rule
says: the name of the table counts before the pattern, and the pattern before the export. If there
is a rejection it is at the place of the constructor, and the table stays as it was. However many
constructors are registered, none is rejected for its display, its disassembly actions or its
semantic part. -/
theorem attempt_decides (traceAll : Bool) (table : Table) (written : Constructor.Written)
    (loc : Location) :
    (∀ outcome after, Decision table written loc outcome after ↔
        (table.attempt traceAll written loc).outcome = outcome ∧
          (table.attempt traceAll written loc).table = after) ∧
      (∀ rejection, (table.attempt traceAll written loc).outcome = .error rejection →
        rejection.loc = loc ∧ (table.attempt traceAll written loc).table = table) ∧
      ∀ requests rejection, .error rejection ∈ (table.attemptAll traceAll requests).2 →
        ¬ rejection.cause.IsOfOtherPart := by
  have hdecision := decision_attempt traceAll table written loc
  refine ⟨?_, ?_, ?_⟩
  · intro outcome after
    refine ⟨fun h => attempt_of_decision h traceAll, ?_⟩
    rintro ⟨rfl, rfl⟩
    exact hdecision
  · intro rejection hrejection
    rw [hrejection] at hdecision
    exact ⟨hdecision.of_error.2.1, hdecision.of_error.1⟩
  · intro requests rejection
    exact not_of_other_part traceAll

/-- A constructor with an empty block and an export that does not fit is rejected for the name of
its table if that is not valid, else for the block, and only without the block for its export. One
that exports nothing, as the table does, comes in behind the first. -/
theorem attempt_decides_three_faults :
    let loc : Location := ⟨1, 2, 3⟩
    let four : Width := ⟨4, by decide⟩
    let misfit : Constructor.Written :=
      { execution? := some { exportStatement? := some ⟨.constant, four⟩ } }
    let broken : Constructor.Written := { misfit with pattern := [{}] }
    let unnamed := newEmpty ⟨1⟩ "9x" "insn"
    let table := ((newEmpty ⟨1⟩ "reg" "insn").attempt false {} loc).table
    let mismatch : Rejection := ⟨loc, .exportMismatch ⟨.none, .sized .const four⟩⟩
    ((unnamed.attempt false broken loc).outcome = .error ⟨loc, .invalidTableName "9x"⟩ ∧
        (unnamed.attempt false broken loc).table = unnamed) ∧
      ((table.attempt false broken loc).outcome = .error ⟨loc, .pattern ⟨.emptyBlock, "", loc⟩⟩ ∧
        (table.attempt false broken loc).table = table) ∧
      ((table.attempt false misfit loc).outcome = .error mismatch ∧ mismatch.loc = loc ∧
        (table.attempt false misfit loc).table = table) ∧
      ((table.attempt false {} loc).outcome = .ok () ∧
        (table.attempt false {} loc).table.size = 2) ∧
      .error mismatch ∈ (table.attemptAll false [⟨{}, loc⟩, ⟨misfit, loc⟩]).2 ∧
        ¬ mismatch.cause.IsOfOtherPart := by
  intro loc four misfit broken unnamed table mismatch
  have hname : IsName table.name := by decide
  have hmisfit : (Constructor.withPattern misfit loc {}).ElaboratedFrom misfit loc :=
    ⟨rfl, rfl, rfl, rfl, rfl⟩
  have hnone : ∀ whole, ¬ table.JoinsTo (Constructor.withPattern misfit loc {}).exported whole := by
    intro whole hwhole
    exact absurd (joins_to_iff.1 hwhole).1 (by decide)
  have hfitting : (Constructor.withPattern {} loc {}).ElaboratedFrom {} loc :=
    ⟨rfl, rfl, rfl, rfl, rfl⟩
  have hwhole : table.JoinsTo (Constructor.withPattern {} loc {}).exported .none :=
    joins_to_iff.2 ⟨by decide, rfl⟩
  obtain ⟨hdecides, hrejected, hcauses⟩ := attempt_decides false table misfit loc
  obtain ⟨hmismatch, -⟩ := (hdecides _ _).1 (.exportMismatch hname hmisfit hnone)
  have hlater : .error mismatch ∈ (table.attemptAll false [⟨{}, loc⟩, ⟨misfit, loc⟩]).2 := by
    decide
  refine ⟨?_, ?_, ?_, ?_, hlater, hcauses _ mismatch hlater⟩
  · exact ((attempt_decides false unnamed broken loc).1 _ _).1 (.invalidName (by decide))
  · exact ((attempt_decides false table broken loc).1 _ _).1 (.patternFault hname rfl)
  · exact ⟨hmismatch, hrejected _ hmismatch⟩
  · obtain ⟨hok, hgrown⟩ :=
      ((attempt_decides false table {} loc).1 _ _).1 (.registered hname hfitting hwhole)
    rw [hgrown]
    exact ⟨hok, rfl⟩

end Table

end DecodeTables
