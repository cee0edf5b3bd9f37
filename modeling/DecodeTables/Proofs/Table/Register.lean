import DecodeTables.Proofs.Constructor.Elaborate
import DecodeTables.Proofs.Export.Join
import DecodeTables.Table

/-!
# What a registration does to a table

A `Request` asks for a constructor to be registered. A table `accepts` it if the table has a valid
name, the pattern of the request has no fault, and its export fits the constructors that the table
has. `register_eq_ok_iff` says that these are the requests that are registered, and `attempt_table`
what an attempt leaves: the table grown by one constructor, or the table as it was.
`Alike` tables, which differ at most in what is no business of a registration, accept the same
requests.
-/

namespace DecodeTables.Table

/-- A constructor as written, with its place, that is to be registered. -/
structure Request where
  written : Constructor.Written
  loc : Location
deriving DecidableEq, Repr

namespace Request

/-- Says whether the pattern of a request has no fault. -/
def isSound (request : Request) : Bool :=
  Pattern.isSound request.written.pattern request.loc

/-- What the constructor of a request exports. -/
def exported (request : Request) : Export :=
  request.written.exported

/-- The constructor of a request, unless its pattern is at fault. -/
def constructor? (request : Request) : Option Constructor :=
  Constructor.elaborate? request.written request.loc

theorem constructor_is_some (request : Request) :
    request.constructor?.isSome = request.isSound :=
  Constructor.elaborate_is_some request.written request.loc

/-- A request whose pattern has no fault has a constructor. -/
theorem exists_constructor {request : Request} (h : request.isSound = true) :
    ∃ constructor, request.constructor? = some constructor := by
  rw [← request.constructor_is_some, Option.isSome_iff_exists] at h
  exact h

/-- The constructor of a request exports what the request says. -/
theorem exported_of_constructor {request : Request} {constructor : Constructor}
    (h : request.constructor? = some constructor) :
    constructor.exported = request.exported :=
  Constructor.exported_of_elaborate (Constructor.elaborate_some_iff.1 h)

end Request

/-- Says whether an export fits the constructors of a table: any does as long as there are none. -/
def fits (table : Table) (exported : Export) : Bool :=
  table.isEmpty || decide (table.exported.width? = exported.width?)

/-- The table with one more constructor. -/
def grow (table : Table) (constructor : Constructor) : Table :=
  { table with
    constructors := table.constructors ++ [constructor]
    exported :=
      if table.isEmpty then constructor.exported else table.exported.join constructor.exported }

/-- Says whether a table takes in the constructor of a request. -/
def accepts (table : Table) (request : Request) : Bool :=
  isValidName table.name && request.isSound && table.fits request.exported

/-- A table without a valid name rejects every constructor. -/
theorem register_of_invalid_name {table : Table} (hname : isValidName table.name = false)
    (written : Constructor.Written) (loc : Location) :
    table.register written loc = .error ⟨loc, .invalidTableName table.name⟩ := by
  unfold register
  simp only [hname]
  rfl

/-- A table with a valid name rejects a constructor whose pattern is at fault. -/
theorem register_of_fault {table : Table} {written : Constructor.Written} {loc : Location}
    {rejection : Rejection} (hname : isValidName table.name = true)
    (hfault : Constructor.elaborate written loc = .error rejection) :
    table.register written loc = .error rejection := by
  unfold register
  simp only [hname, hfault]
  rfl

/-- Otherwise the export decides. -/
theorem register_of_elaborate {table : Table} {written : Constructor.Written} {loc : Location}
    {constructor : Constructor} (hname : isValidName table.name = true)
    (hok : Constructor.elaborate written loc = .ok constructor) :
    table.register written loc =
      if table.fits constructor.exported then .ok (table.grow constructor)
      else .error ⟨loc, .exportMismatch ⟨table.exported, constructor.exported⟩⟩ := by
  unfold register
  simp only [hname, hok, bind, Except.bind, Export.extend_eq, fits]
  rcases Bool.eq_false_or_eq_true
      (table.isEmpty || decide (table.exported.width? = constructor.exported.width?))
    with hfits | hfits
  · simp only [hfits, ↓reduceIte]
    rfl
  · simp only [hfits, Bool.false_eq_true, ↓reduceIte]
    rfl

/-- A rejection is about the place of the constructor that is rejected. -/
theorem loc_of_register_error {table : Table} {written : Constructor.Written} {loc : Location}
    {rejection : Rejection} (h : table.register written loc = .error rejection) :
    rejection.loc = loc := by
  cases hname : isValidName table.name with
  | false =>
      rw [register_of_invalid_name hname] at h
      cases h
      rfl
  | true =>
      cases hresult : Constructor.elaborate written loc with
      | error fault =>
          rw [register_of_fault hname hresult] at h
          cases h
          rw [Constructor.elaborate_eq] at hresult
          split at hresult
          · cases hresult
          · cases hresult
            rfl
      | ok constructor =>
          rw [register_of_elaborate hname hresult] at h
          split at h
          · cases h
          · cases h
            rfl

/-- A constructor is registered exactly if the table accepts it, and the table then grows by it. -/
theorem register_eq_ok_iff {table grown : Table} {request : Request} :
    table.register request.written request.loc = .ok grown ↔
      table.accepts request = true ∧
        ∃ constructor, request.constructor? = some constructor ∧
          grown = table.grow constructor := by
  rw [accepts, ← request.constructor_is_some, Request.constructor?]
  cases hname : isValidName table.name with
  | false => simp [register_of_invalid_name hname]
  | true =>
      cases hresult : Constructor.elaborate request.written request.loc with
      | error rejection =>
          simp [register_of_fault hname hresult, Constructor.elaborate?, hresult,
            Except.toOption]
      | ok constructor =>
          have hexported : constructor.exported = request.exported :=
            Constructor.exported_of_elaborate hresult
          rw [register_of_elaborate hname hresult, hexported]
          cases hfits : table.fits request.exported <;>
            simp [Constructor.elaborate?, hresult, Except.toOption, eq_comm]

/-- A table accepts what it takes in. -/
theorem accepts_of_register_ok {table grown : Table} {request : Request}
    (h : table.register request.written request.loc = .ok grown) :
    table.accepts request = true :=
  (register_eq_ok_iff.1 h).1

/-- A table does not accept what it rejects. -/
theorem accepts_of_register_error {table : Table} {request : Request} {rejection : Rejection}
    (h : table.register request.written request.loc = .error rejection) :
    table.accepts request = false := by
  rw [← Bool.not_eq_true]
  intro haccepts
  have hsound : request.isSound = true := by
    simp only [accepts, Bool.and_eq_true] at haccepts
    exact haccepts.1.2
  obtain ⟨constructor, hconstructor⟩ := Request.exists_constructor hsound
  rw [register_eq_ok_iff.2 ⟨haccepts, constructor, hconstructor, rfl⟩] at h
  cases h

/-- The table after a request was attempted. -/
def after (table : Table) (request : Request) : Table :=
  match request.constructor? with
  | some constructor => if table.accepts request then table.grow constructor else table
  | none => table

/-- An attempt changes neither the name nor the symbol of a table. -/
theorem key_after (table : Table) (request : Request) :
    (table.after request).name = table.name ∧ (table.after request).symbol = table.symbol := by
  rw [after]
  cases request.constructor? with
  | none => exact ⟨rfl, rfl⟩
  | some constructor => cases table.accepts request <;> exact ⟨rfl, rfl⟩

/-- Nor does it change which name makes a table the root. -/
theorem root_name_after (table : Table) (request : Request) :
    (table.after request).rootName = table.rootName := by
  rw [after]
  cases request.constructor? with
  | none => rfl
  | some constructor => cases table.accepts request <;> rfl

/-- Nor whether the table is traced. -/
theorem is_traced_after (table : Table) (request : Request) :
    (table.after request).isTraced = table.isTraced := by
  rw [after]
  cases request.constructor? with
  | none => rfl
  | some constructor => cases table.accepts request <;> rfl

/-- An attempt succeeds exactly if the table accepts the request. -/
theorem attempt_is_ok (traceAll : Bool) (table : Table) (request : Request) :
    (table.attempt traceAll request.written request.loc).outcome.isOk =
      table.accepts request := by
  simp only [attempt]
  cases hresult : table.register request.written request.loc with
  | ok grown => exact (accepts_of_register_ok hresult).symm
  | error rejection => exact (accepts_of_register_error hresult).symm

/-- An attempt leaves the table as it was, or grown by the constructor of the request. -/
theorem attempt_table (traceAll : Bool) (table : Table) (request : Request) :
    (table.attempt traceAll request.written request.loc).table = table.after request := by
  have hisOk := attempt_is_ok traceAll table request
  simp only [attempt, after] at hisOk ⊢
  cases hresult : table.register request.written request.loc with
  | ok grown =>
      obtain ⟨haccepts, constructor, hconstructor, rfl⟩ := register_eq_ok_iff.1 hresult
      simp only [hconstructor, haccepts, ↓reduceIte]
      rfl
  | error rejection =>
      rw [hresult] at hisOk
      have hrejects : table.accepts request = false := hisOk.symm
      cases request.constructor? <;> simp [hrejects, Except.toOption]

/-- Attempts requests in order. Gives the table afterwards, and what the attempts came to. -/
def attemptAll (traceAll : Bool) (table : Table) :
    List Request → Table × List (Except Rejection Unit)
  | [] => (table, [])
  | request :: requests =>
      let first := table.attempt traceAll request.written request.loc
      let (last, outcomes) := first.table.attemptAll traceAll requests
      (last, first.outcome :: outcomes)

/-- Tables that differ at most in their symbols, in what makes a table the root, and in whether they
are traced. -/
structure Alike (table other : Table) : Prop where
  name : table.name = other.name
  constructors : table.constructors = other.constructors
  exported : table.exported = other.exported

namespace Alike

theorem refl (table : Table) : Alike table table := ⟨rfl, rfl, rfl⟩

theorem symm {table other : Table} (h : Alike table other) : Alike other table :=
  ⟨h.name.symm, h.constructors.symm, h.exported.symm⟩

theorem trans {first second third : Table} (h : Alike first second) (h' : Alike second third) :
    Alike first third :=
  ⟨h.name.trans h'.name, h.constructors.trans h'.constructors, h.exported.trans h'.exported⟩

variable {table other : Table}

/-- Alike tables accept and reject the same constructors, for the same reasons. -/
theorem register (h : Alike table other) (written : Constructor.Written) (loc : Location) :
    (table.register written loc).map (fun _ => ()) =
      (other.register written loc).map fun _ => () := by
  cases hname : isValidName table.name with
  | false =>
      have hother : isValidName other.name = false := h.name ▸ hname
      rw [register_of_invalid_name hname, register_of_invalid_name hother, h.name]
  | true =>
      have hother : isValidName other.name = true := h.name ▸ hname
      cases hresult : Constructor.elaborate written loc with
      | error rejection =>
          rw [register_of_fault hname hresult, register_of_fault hother hresult]
      | ok constructor =>
          rw [register_of_elaborate hname hresult, register_of_elaborate hother hresult,
            h.exported]
          have hfits : table.fits constructor.exported = other.fits constructor.exported := by
            simp only [fits, isEmpty, h.constructors, h.exported]
          rw [hfits]
          cases other.fits constructor.exported <;> rfl

/-- Alike tables accept the same requests. -/
theorem accepts (h : Alike table other) (request : Request) :
    table.accepts request = other.accepts request := by
  simp only [Table.accepts, fits, isEmpty, h.name, h.constructors, h.exported]

/-- Alike tables stay alike when a request is attempted. -/
theorem after (h : Alike table other) (request : Request) :
    Alike (table.after request) (other.after request) := by
  simp only [Table.after, h.accepts]
  cases request.constructor? with
  | none => exact h
  | some constructor =>
      cases other.accepts request with
      | false => exact h
      | true =>
          refine ⟨h.name, ?_, ?_⟩
          · simp [grow, h.constructors]
          · simp [grow, isEmpty, h.constructors, h.exported]

end Alike

end DecodeTables.Table
