import DecodeTables.Proofs.Table.Batch

/-!
# Requests that are all accepted

A table that begins without constructors accepts all requests exactly if they agree, each with
every other, `attempts_ok_iff`. It then has the constructors of all of them, in order.
-/

namespace DecodeTables.Table

/-- Requests for a table called `name` that ask for nothing the table could reject. -/
structure Agreeing (name : String) (requests : List Request) : Prop where
  name : ∀ request ∈ requests, isValidName name = true
  sound : ∀ request ∈ requests, request.isSound = true
  width : ∀ request ∈ requests, ∀ other ∈ requests,
    request.exported.width? = other.exported.width?

/-- Requests that follow one without a fault are all accepted exactly if each suits it. -/
theorem attempts_ok_of_leader {table : Table} {leader : Request}
    (hname : isValidName table.name = true) (hempty : table.isEmpty = true)
    (hsound : leader.isSound = true) (traceAll : Bool) (requests : List Request) :
    (∀ outcome ∈ (table.attemptAll traceAll (leader :: requests)).2, outcome.isOk = true) ↔
      ∀ request ∈ leader :: requests, request.isSound = true ∧
        leader.exported.width? = request.exported.width? := by
  obtain ⟨houtcomes, -⟩ := attempt_all_of_leader hname hempty hsound traceAll requests
  have hall : (∀ outcome ∈ (table.attemptAll traceAll (leader :: requests)).2,
        outcome.isOk = true) ↔
      ∀ isOk ∈ (table.attemptAll traceAll (leader :: requests)).2.map Except.isOk,
        isOk = true := by
    rw [List.forall_mem_map]
  rw [hall, houtcomes, List.forall_mem_map]
  simp only [suits, Bool.and_eq_true, decide_eq_true_eq]

/-- A table without constructors accepts requests, one after another, exactly if they agree. -/
theorem attempts_ok_iff {table : Table} (hempty : table.isEmpty = true) (traceAll : Bool)
    (requests : List Request) :
    (∀ outcome ∈ (table.attemptAll traceAll requests).2, outcome.isOk = true) ↔
      Agreeing table.name requests := by
  cases requests with
  | nil => exact ⟨fun _ => ⟨by simp, by simp, by simp⟩, fun _ => by simp [attemptAll]⟩
  | cons leader requests =>
      -- the first request is accepted on its own merits, and then sets the width
      have hleader : table.accepts leader = true ↔
          isValidName table.name = true ∧ leader.isSound = true := by
        simp [accepts, fits, hempty]
      constructor
      · intro hok
        have hfirst := (List.forall_mem_cons.1 hok).1
        rw [attempt_is_ok] at hfirst
        obtain ⟨hname, hsound⟩ := hleader.1 hfirst
        have hsuits := (attempts_ok_of_leader hname hempty hsound traceAll requests).1 hok
        refine ⟨fun _ _ => hname, fun request hmem => (hsuits request hmem).1, ?_⟩
        intro request hmem other hother
        exact (hsuits request hmem).2.symm.trans (hsuits other hother).2
      · intro h
        have hname := h.name leader List.mem_cons_self
        have hsound := h.sound leader List.mem_cons_self
        rw [attempts_ok_of_leader hname hempty hsound]
        intro request hmem
        exact ⟨h.sound request hmem, h.width leader List.mem_cons_self request hmem⟩

/-- A table that accepts all requests has the constructors of all of them. -/
theorem constructors_of_attempts_ok {table : Table} {traceAll : Bool} {requests : List Request}
    (hok : ∀ outcome ∈ (table.attemptAll traceAll requests).2, outcome.isOk = true) :
    (table.attemptAll traceAll requests).1.constructors =
      table.constructors ++ requests.filterMap Request.constructor? := by
  induction requests generalizing table with
  | nil => exact (List.append_nil _).symm
  | cons request requests ih =>
      rw [attemptAll, attempt_table, List.forall_mem_cons, attempt_is_ok] at hok
      obtain ⟨constructor, hconstructor, -, hafter⟩ := after_of_accepts hok.1
      rw [attemptAll, attempt_table, ih hok.2, hafter, List.filterMap_cons_some hconstructor]
      simp [grow]

end DecodeTables.Table
