import DecodeTables.Proofs.Catalog.Settled
import DecodeTables.Proofs.Elaboration.AddAll
import DecodeTables.Proofs.Elaboration.Finish

/-!
# The verdict on a specification

An elaboration that begins with nothing takes entries in one by one and in the end says whether
there was no error. `verdict_iff_consistent` says what this `verdict` depends on: on whether the
entries as written are `Consistent`, which has nothing to do with their order or their statements.
-/

namespace DecodeTables

namespace Catalog.Entry

/-- The entry without the statements of its semantic part, those that build operands included. -/
def withoutStatements (entry : Entry) : Entry :=
  { entry with constructor := { entry.constructor with
      execution? := entry.constructor.execution?.map fun written =>
        { written with statements := [] } } }

/-- What the verdict on a specification depends on in one entry. -/
structure Outline where
  table : String
  isSound : Bool
  width? : Option Width
  mentions : List String

/-- The outline of an entry. -/
def outline (entry : Entry) : Outline where
  table := entry.table
  isSound := Pattern.isSound entry.constructor.pattern entry.loc
  width? := entry.constructor.exported.width?
  mentions := Pattern.mentions entry.constructor.pattern

/-- Statements do not show in an outline. -/
theorem outline_without_statements (entry : Entry) :
    entry.withoutStatements.outline = entry.outline := by
  have hexported : entry.withoutStatements.constructor.exported = entry.constructor.exported := by
    unfold Constructor.Written.exported withoutStatements
    cases entry.constructor.execution? <;> rfl
  unfold outline
  rw [hexported]
  rfl

end Catalog.Entry

namespace Elaboration

open Catalog (Entry requestsFor)

/-- The answer of an elaboration that begins without tables and diagnostics, adds entries, and
ends. -/
def verdict (rootName : String) (traceAll : Bool) (options : Options) (entries : List Entry) :
    Bool :=
  let begun := start options { catalog := .empty rootName, traceAll }
  let added := begun.elaboration.addAll begun.workspace entries
  (added.elaboration.finish added.workspace).answer

/-- Entries that make up a specification: they are for tables with valid names, their patterns have
no faults, and those for one table export nothing or values of one width. There are entries for
the root, if it has to have any, and for every table that a pattern mentions. -/
structure Consistent (options : Options) (entries : List Entry) : Prop where
  name : ∀ entry ∈ entries, Table.isValidName entry.table = true
  sound : ∀ entry ∈ entries, Pattern.isSound entry.constructor.pattern entry.loc = true
  width : ∀ entry ∈ entries, ∀ other ∈ entries, entry.table = other.table →
    entry.constructor.exported.width? = other.constructor.exported.width?
  root : options.requiresRoot = true → ∃ entry ∈ entries, entry.table = options.rootName
  subTables : ∀ entry ∈ entries, ∀ name ∈ Pattern.mentions entry.constructor.pattern,
    ∃ other ∈ entries, other.table = name

/-- The requests for each table agree if this is so for all entries. -/
theorem agreeing_iff {entries : List Entry} :
    (∀ name, Table.Agreeing name (requestsFor name entries)) ↔
      (∀ entry ∈ entries, Table.isValidName entry.table = true) ∧
        (∀ entry ∈ entries, Pattern.isSound entry.constructor.pattern entry.loc = true) ∧
        ∀ entry ∈ entries, ∀ other ∈ entries, entry.table = other.table →
          entry.constructor.exported.width? = other.constructor.exported.width? := by
  constructor
  · intro h
    have hmem {entry : Entry} (hentry : entry ∈ entries) :
        entry.request ∈ requestsFor entry.table entries :=
      Catalog.mem_requests_for.2 ⟨entry, hentry, rfl, rfl⟩
    refine ⟨?_, ?_, ?_⟩
    · intro entry hentry
      exact (h entry.table).name _ (hmem hentry)
    · intro entry hentry
      exact (h entry.table).sound _ (hmem hentry)
    · intro entry hentry other hother hsame
      exact (h entry.table).width _ (hmem hentry) _ (hsame ▸ hmem hother)
  · intro h name
    obtain ⟨hname, hsound, hwidth⟩ := h
    refine ⟨?_, ?_, ?_⟩
    · intro request hrequest
      obtain ⟨entry, hentry, rfl, -⟩ := Catalog.mem_requests_for.1 hrequest
      exact hname entry hentry
    · intro request hrequest
      obtain ⟨entry, hentry, -, rfl⟩ := Catalog.mem_requests_for.1 hrequest
      exact hsound entry hentry
    · intro request hrequest another hanother
      obtain ⟨entry, hentry, htable, rfl⟩ := Catalog.mem_requests_for.1 hrequest
      obtain ⟨other, hother, hsame, rfl⟩ := Catalog.mem_requests_for.1 hanother
      exact hwidth entry hentry other hother (htable.trans hsame.symm)

/-- The errors that are left concern the root and the tables that constructors use. -/
theorem errors_eq_nil_iff {elaboration : Elaboration} {catalog : Catalog} :
    elaboration.errors catalog = [] ↔
      (elaboration.options.requiresRoot = true → catalog.isDefined catalog.rootName = true) ∧
        catalog.undefinedTables = [] := by
  rw [errors, List.append_eq_nil_iff, Catalog.undefinedRoot]
  cases elaboration.options.requiresRoot <;> simp

/-- Adding entries reports no error exactly if none of them is rejected. -/
theorem errors_add_all_iff (elaboration : Elaboration) (workspace : Workspace)
    (entries : List Entry) :
    (elaboration.addAll workspace entries).workspace.log.errors = 0 ↔
      workspace.log.errors = 0 ∧
        ∀ outcome ∈ (workspace.catalog.registerAll workspace.traceAll entries).2.map (·.outcome),
          outcome.isOk = true := by
  rw [add_all_eq, ← rejections_eq_nil_iff]
  simp only [Log.errors_report_all, Log.count_errors (severity_rejections _), List.length_map,
    Nat.add_eq_zero_iff, List.length_eq_zero_iff]

/-- What is left to be reported after entries were added without a rejection, to a catalog without
tables, is that there are no entries for the root or for a table that a pattern mentions. -/
theorem errors_settled_iff {elaboration : Elaboration} {catalog : Catalog} {entries : List Entry}
    (h : catalog.Settled entries) :
    elaboration.errors catalog = [] ↔
      (elaboration.options.requiresRoot = true →
        ∃ entry ∈ entries, entry.table = catalog.rootName) ∧
        ∀ entry ∈ entries, ∀ name ∈ Pattern.mentions entry.constructor.pattern,
          ∃ other ∈ entries, other.table = name := by
  rw [errors_eq_nil_iff, h.is_defined_iff, h.undefined_tables_eq_nil_iff]

/-- The verdict is that the entries are consistent. -/
theorem verdict_eq_true_iff {rootName : String} {traceAll : Bool} {options : Options}
    {entries : List Entry} :
    verdict rootName traceAll options entries = true ↔ Consistent options entries := by
  let begun := start options { catalog := .empty rootName, traceAll }
  have hindexed : begun.workspace.catalog.Indexed :=
    indexed_start (Catalog.indexed_empty rootName) options
  have hroot : (begun.workspace.catalog.registerAll traceAll entries).1.rootName =
      options.rootName :=
    Catalog.root_name_register_all traceAll _ entries
  have hverdict : verdict rootName traceAll options entries = true ↔
      (begun.elaboration.addAll begun.workspace entries).workspace.log.errors = 0 ∧
        (begun.elaboration.addAll begun.workspace entries).elaboration.errors
          (begun.elaboration.addAll begun.workspace entries).workspace.catalog = [] :=
    answer_finish_iff _ _
  rw [hverdict, errors_add_all_iff, add_all_eq]
  constructor
  · intro h
    obtain ⟨⟨-, hok⟩, herrors⟩ := h
    have hagree := (Catalog.outcomes_ok_iff hindexed rfl traceAll).1 hok
    obtain ⟨hname, hsound, hwidth⟩ := agreeing_iff.1 hagree
    have hleft := (errors_settled_iff (Catalog.settled_of_outcomes hindexed rfl hok)).1 herrors
    exact ⟨hname, hsound, hwidth, hroot ▸ hleft.1, hleft.2⟩
  · intro h
    have hagree := agreeing_iff.2 ⟨h.name, h.sound, h.width⟩
    have hok := (Catalog.outcomes_ok_iff hindexed rfl traceAll).2 hagree
    refine ⟨⟨rfl, hok⟩, ?_⟩
    refine (errors_settled_iff (Catalog.settled_of_outcomes hindexed rfl hok)).2 ⟨?_, h.subTables⟩
    exact fun hrequires => hroot ▸ h.root hrequires

/-- Entries with the outlines of consistent entries are consistent. -/
theorem Consistent.of_outlines {options : Options} {entries others : List Entry}
    (h : Consistent options entries)
    (hsame : ∀ outline, outline ∈ others.map Entry.outline ↔ outline ∈ entries.map Entry.outline) :
    Consistent options others := by
  have hback : ∀ other ∈ others, ∃ entry ∈ entries, entry.outline = other.outline := by
    intro other hother
    exact List.mem_map.1 ((hsame _).1 (List.mem_map_of_mem hother))
  have hforth : ∀ {name}, (∃ entry ∈ entries, entry.table = name) →
      ∃ other ∈ others, other.table = name := by
    intro name hnamed
    obtain ⟨entry, hentry, hname⟩ := hnamed
    obtain ⟨other, hother, houtline⟩ := List.mem_map.1 ((hsame _).2 (List.mem_map_of_mem hentry))
    exact ⟨other, hother, (congrArg Entry.Outline.table houtline).trans hname⟩
  -- that an entry exists is carried over by `hforth`, what holds of all entries by `hback`
  refine ⟨?_, ?_, ?_, fun hrequires => hforth (h.root hrequires), ?_⟩
  · intro other hother
    obtain ⟨entry, hentry, houtline⟩ := hback other hother
    have htable : entry.table = other.table := congrArg Entry.Outline.table houtline
    exact htable ▸ h.name entry hentry
  · intro other hother
    obtain ⟨entry, hentry, houtline⟩ := hback other hother
    exact (congrArg Entry.Outline.isSound houtline).symm.trans (h.sound entry hentry)
  · intro first hfirst second hsecond htable
    obtain ⟨entry, hentry, houtline⟩ := hback first hfirst
    obtain ⟨other, hother, houtline'⟩ := hback second hsecond
    have hwidth := h.width entry hentry other hother
      ((congrArg Entry.Outline.table houtline).trans
        (htable.trans (congrArg Entry.Outline.table houtline').symm))
    exact (congrArg Entry.Outline.width? houtline).symm.trans
      (hwidth.trans (congrArg Entry.Outline.width? houtline'))
  · intro other hother name hname
    obtain ⟨entry, hentry, houtline⟩ := hback other hother
    have hmentions : Pattern.mentions entry.constructor.pattern =
        Pattern.mentions other.constructor.pattern := congrArg Entry.Outline.mentions houtline
    exact hforth (h.subTables entry hentry name (hmentions ▸ hname))

/-- Lists of entries with the same outlines have the same verdict. -/
theorem verdict_congr {rootName : String} {traceAll : Bool} {options : Options}
    {entries others : List Entry}
    (hsame : ∀ outline, outline ∈ others.map Entry.outline ↔ outline ∈ entries.map Entry.outline) :
    verdict rootName traceAll options others = verdict rootName traceAll options entries := by
  rw [Bool.eq_iff_iff, verdict_eq_true_iff, verdict_eq_true_iff]
  exact ⟨fun h => h.of_outlines fun outline => (hsame outline).symm, fun h => h.of_outlines hsame⟩

/-- An elaboration that begins with nothing ends without errors exactly if the entries that it is
given are consistent. It comes to the same verdict in whatever order they are given, and whatever
statements they have. -/
theorem verdict_iff_consistent (rootName : String) (traceAll : Bool) (options : Options)
    (entries : List Entry) :
    (verdict rootName traceAll options entries = true ↔ Consistent options entries) ∧
      (∀ others, others.Perm entries →
        verdict rootName traceAll options others = verdict rootName traceAll options entries) ∧
      ∀ others, others.map Entry.withoutStatements = entries.map Entry.withoutStatements →
        verdict rootName traceAll options others = verdict rootName traceAll options entries := by
  refine ⟨verdict_eq_true_iff, ?_, ?_⟩
  · intro others hperm
    exact verdict_congr fun outline => (hperm.map Entry.outline).mem_iff
  · intro others hsame
    have houtline : Entry.outline = Entry.outline ∘ Entry.withoutStatements :=
      funext fun entry => entry.outline_without_statements.symm
    apply verdict_congr
    intro outline
    rw [houtline, ← List.map_map, hsame, List.map_map]

/-- A root whose pattern goes on with the table `reg`, and a constructor for that table, in both
orders, and with a statement that builds an operand that is no table. -/
theorem verdict_root_reg :
    let pattern (term : Pattern.Term) : Pattern.Written := [{ elements := [{ term }] }]
    let root (statements : List Execution.Statement) : Entry :=
      { table := "insn"
        constructor := { pattern := pattern (.subTable "reg"), execution? := some { statements } } }
    let reg : Entry := { table := "reg", constructor := { pattern := pattern (.field "r") } }
    let building := root [{ kind := .build, target := "mem" }]
    let options : Options := { rootName := "insn" }
    Consistent options [root [], reg] ∧
      ([reg, root []].Perm [root [], reg] ∧ verdict "instruction" false options [reg, root []]) ∧
      [building, reg].map Entry.withoutStatements = [root [], reg].map Entry.withoutStatements ∧
        verdict "instruction" false options [building, reg] := by
  intro pattern root reg building options
  have hverdict : verdict "instruction" false options [root [], reg] = true := by decide
  obtain ⟨hconsistent, hperm, hstatements⟩ :=
    verdict_iff_consistent "instruction" false options [root [], reg]
  have hswap : [reg, root []].Perm [root [], reg] := .swap _ _ _
  exact ⟨hconsistent.1 hverdict, ⟨hswap, (hperm _ hswap).trans hverdict⟩, rfl,
    (hstatements [building, reg] rfl).trans hverdict⟩

end Elaboration

end DecodeTables
