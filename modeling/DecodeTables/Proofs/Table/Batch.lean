import DecodeTables.Proofs.Table.Register

/-!
# Registering one by one and all at once

A table sees one constructor at a time and compares its export with what it has joined so far. Seen
as a whole, the first request whose pattern has no fault, the `leader?`, decides which others are
admitted. `attempt_all_eq_batch` says that a table with a valid name that begins without
constructors takes in exactly the admitted requests, and ends with the export that all of them have
in common.
-/

namespace DecodeTables.Table

/-- Says whether the pattern of a request has no fault and its export agrees with `exported`: both
are nothing, or both have the same width. -/
def suits (exported : Export) (request : Request) : Bool :=
  request.isSound && decide (exported.width? = request.exported.width?)

/-- The first request whose pattern has no fault. -/
def leader? (requests : List Request) : Option Request :=
  requests.find? Request.isSound

/-- Says whether a request suits the first one whose pattern has no fault. -/
def admitted (requests : List Request) (request : Request) : Bool :=
  (leader? requests).any fun leader => suits leader.exported request

/-- The export that all admitted requests have in common. -/
def batchExport (requests : List Request) : Export :=
  match (leader? requests).map Request.exported with
  | none => .none
  | some .none => .none
  | some (.sized kind width) =>
      if ∀ request ∈ requests.filter (admitted requests), request.exported = .sized kind width then
        .sized kind width
      else .sized .multiple width

/-- Only the width of an export matters for what suits it. -/
theorem suits_congr {exported other : Export} (h : exported.width? = other.width?) :
    suits exported = suits other := by
  funext request
  simp only [suits, h]

/-- What a table with constructors accepts depends on its export only. -/
theorem accepts_of_nonempty {table : Table} (hname : isValidName table.name = true)
    (hne : table.isEmpty = false) (request : Request) :
    table.accepts request = suits table.exported request := by
  simp [accepts, fits, suits, hname, hne]

/-- A table with a valid name and without constructors accepts whatever can be elaborated. -/
theorem accepts_of_empty {table : Table} (hname : isValidName table.name = true)
    (hempty : table.isEmpty = true) (request : Request) :
    table.accepts request = request.isSound := by
  simp [accepts, fits, hname, hempty]

/-- A table grows by the constructor of a request that it accepts. -/
theorem after_of_accepts {table : Table} {request : Request}
    (haccepts : table.accepts request = true) :
    ∃ constructor, request.constructor? = some constructor ∧
      constructor.exported = request.exported ∧ table.after request = table.grow constructor := by
  have hsound : request.isSound = true := by
    simp only [accepts, Bool.and_eq_true] at haccepts
    exact haccepts.1.2
  obtain ⟨constructor, hconstructor⟩ := Request.exists_constructor hsound
  refine ⟨constructor, hconstructor, Request.exported_of_constructor hconstructor, ?_⟩
  simp only [after, hconstructor, haccepts, ↓reduceIte]

/-- A table stays as it is when it does not accept a request. -/
theorem after_of_rejects {table : Table} {request : Request}
    (hrejects : table.accepts request = false) : table.after request = table := by
  simp only [after, hrejects, Bool.false_eq_true, ↓reduceIte]
  cases request.constructor? <;> rfl

theorem is_empty_grow (table : Table) (constructor : Constructor) :
    (table.grow constructor).isEmpty = false := by
  simp [grow, isEmpty]

/-- A table that has constructors takes in what suits its export. Its width never changes, so what
suits it at the beginning suits it to the end. -/
theorem attempt_all_of_nonempty {table : Table} (hname : isValidName table.name = true)
    (hne : table.isEmpty = false) (traceAll : Bool) (requests : List Request) :
    (table.attemptAll traceAll requests).2.map Except.isOk =
        requests.map (suits table.exported) ∧
      (table.attemptAll traceAll requests).1.constructors =
        table.constructors ++
          (requests.filter (suits table.exported)).filterMap Request.constructor? ∧
      (table.attemptAll traceAll requests).1.exported =
        ((requests.filter (suits table.exported)).map Request.exported).foldl Export.join
          table.exported := by
  induction requests generalizing table with
  | nil => exact ⟨rfl, (List.append_nil _).symm, rfl⟩
  | cons request requests ih =>
      have haccepts := accepts_of_nonempty hname hne request
      simp only [attemptAll, attempt_table, List.map_cons, attempt_is_ok, haccepts]
      cases hsuits : suits table.exported request with
      | false =>
          rw [after_of_rejects (haccepts.trans hsuits), List.filter_cons_of_neg (by simp [hsuits])]
          obtain ⟨houtcomes, hrest⟩ := ih hname hne
          exact ⟨congrArg (false :: ·) houtcomes, hrest⟩
      | true =>
          obtain ⟨constructor, hconstructor, hexported, hafter⟩ :=
            after_of_accepts (haccepts.trans hsuits)
          have hjoin :
              (table.grow constructor).exported = table.exported.join request.exported := by
            simp [grow, hne, hexported]
          -- joining keeps the width, so the grown table is suited by the same requests
          have hsame : suits (table.grow constructor).exported = suits table.exported := by
            rw [hjoin]
            exact suits_congr (Export.width_join _ _)
          obtain ⟨houtcomes, hconstructors, hlast⟩ :=
            @ih (table.grow constructor) hname (is_empty_grow table constructor)
          rw [hsame] at houtcomes hconstructors hlast
          rw [hafter, List.filter_cons_of_pos hsuits]
          refine ⟨congrArg (true :: ·) houtcomes, ?_, ?_⟩
          · rw [hconstructors, List.filterMap_cons_some hconstructor]
            simp [grow]
          · rw [hlast, hjoin]
            rfl

/-- A table that begins without constructors takes in the first request if it has no fault, and
then what suits it. -/
theorem attempt_all_of_leader {table : Table} {leader : Request}
    (hname : isValidName table.name = true) (hempty : table.isEmpty = true)
    (hsound : leader.isSound = true) (traceAll : Bool) (requests : List Request) :
    (table.attemptAll traceAll (leader :: requests)).2.map Except.isOk =
        (leader :: requests).map (suits leader.exported) ∧
      (table.attemptAll traceAll (leader :: requests)).1.constructors =
        table.constructors ++
          ((leader :: requests).filter (suits leader.exported)).filterMap Request.constructor? ∧
      (table.attemptAll traceAll (leader :: requests)).1.exported =
        (((leader :: requests).filter (suits leader.exported)).map Request.exported).foldl
          Export.join leader.exported := by
  have hsuits : suits leader.exported leader = true := by
    simp [suits, hsound]
  have haccepts : table.accepts leader = true := by
    rw [accepts_of_empty hname hempty, hsound]
  obtain ⟨constructor, hconstructor, hexported, hafter⟩ := after_of_accepts haccepts
  have hgrown : (table.grow constructor).exported = leader.exported := by
    simp [grow, hempty, hexported]
  -- from then on the export of the leader decides
  obtain ⟨houtcomes, hconstructors, hlast⟩ := @attempt_all_of_nonempty (table.grow constructor)
    hname (is_empty_grow table constructor) traceAll requests
  rw [hgrown] at houtcomes hconstructors hlast
  rw [attemptAll, attempt_table, hafter, List.filter_cons_of_pos hsuits]
  refine ⟨?_, ?_, ?_⟩
  · rw [List.map_cons, List.map_cons, attempt_is_ok, haccepts, houtcomes, hsuits]
  · rw [hconstructors, List.filterMap_cons_some hconstructor]
    simp [grow]
  · rw [hlast, List.map_cons, List.foldl_cons, Export.join_self]

/-- Attempting two runs of requests one after the other is attempting the second on the table that
the first leaves. -/
theorem attempt_all_append (traceAll : Bool) (table : Table) (first second : List Request) :
    table.attemptAll traceAll (first ++ second) =
      (((table.attemptAll traceAll first).1.attemptAll traceAll second).1,
        (table.attemptAll traceAll first).2 ++
          ((table.attemptAll traceAll first).1.attemptAll traceAll second).2) := by
  induction first generalizing table with
  | nil => rfl
  | cons request requests ih =>
      simp only [List.cons_append, attemptAll, ih]

/-- Requests whose patterns are at fault leave a table as it is. -/
theorem attempt_all_of_faults {faulty : List Request}
    (hfaults : ∀ request ∈ faulty, request.isSound = false) (traceAll : Bool) (table : Table) :
    (table.attemptAll traceAll faulty).1 = table ∧
      (table.attemptAll traceAll faulty).2.map Except.isOk = faulty.map fun _ => false := by
  induction faulty with
  | nil => exact ⟨rfl, rfl⟩
  | cons request faulty ih =>
      rw [List.forall_mem_cons] at hfaults
      have hrejects : table.accepts request = false := by
        simp [accepts, hfaults.1]
      obtain ⟨htable, houtcomes⟩ := ih hfaults.2
      simp only [attemptAll, attempt_table, List.map_cons, attempt_is_ok, hrejects,
        after_of_rejects hrejects]
      exact ⟨htable, congrArg (false :: ·) houtcomes⟩

/-- Requests that follow the leader are admitted if they suit it. -/
theorem admitted_of_leader {requests : List Request} {leader : Request}
    (hleader : leader? requests = some leader) :
    admitted requests = suits leader.exported := by
  funext request
  rw [admitted, hleader]
  rfl

/-- Requests whose patterns are at fault suit nothing. -/
theorem filter_suits_of_faults {faulty : List Request}
    (hfaults : ∀ request ∈ faulty, request.isSound = false) (exported : Export) :
    faulty.filter (suits exported) = [] := by
  rw [List.filter_eq_nil_iff]
  intro request hmem
  simp [suits, hfaults request hmem]

/-- The export that all admitted requests have in common is what joining them one by one to the
export of the leader comes to. -/
theorem batch_export_of_leader {requests : List Request} {leader : Request}
    (hleader : leader? requests = some leader) :
    batchExport requests =
      ((requests.filter (admitted requests)).map Request.exported).foldl Export.join
        leader.exported := by
  have hwidth : ∀ exported ∈ (requests.filter (admitted requests)).map Request.exported,
      exported.width? = leader.exported.width? := by
    intro exported hmem
    obtain ⟨request, hrequest, rfl⟩ := List.mem_map.1 hmem
    rw [admitted_of_leader hleader, List.mem_filter, suits, Bool.and_eq_true,
      decide_eq_true_eq] at hrequest
    exact hrequest.2.2.symm
  rw [Export.foldl_join hwidth, batchExport, hleader, Option.map_some]
  simp only [List.forall_mem_map]
  cases leader.exported with
  | none => simp [Export.several, Export.width?]
  | sized kind width => rfl

/-- A table with a valid name that begins without constructors accepts exactly the requests that
suit the first one whose pattern has no fault. It then has the constructors of these requests, in
order, and the export that they have in common. -/
theorem attempt_all_eq_batch (traceAll : Bool) (symbol : Symbol) (name rootName : String)
    (requests : List Request) (hname : isValidName name = true) :
    let (table, outcomes) := (newEmpty symbol name rootName).attemptAll traceAll requests
    outcomes.map Except.isOk = requests.map (admitted requests) ∧
      table.constructors = (requests.filter (admitted requests)).filterMap Request.constructor? ∧
      table.exported = batchExport requests := by
  cases hleader : leader? requests with
  | none =>
      have hfaults : ∀ request ∈ requests, request.isSound = false := by
        simpa [leader?] using hleader
      have hadmitted : admitted requests = fun _ => false := by
        funext request
        rw [admitted, hleader]
        rfl
      obtain ⟨htable, houtcomes⟩ :=
        attempt_all_of_faults hfaults traceAll (newEmpty symbol name rootName)
      simp only [htable, houtcomes, hadmitted, batchExport, hleader]
      exact ⟨trivial, by simp [newEmpty], rfl⟩
  | some leader =>
      have hadmitted := admitted_of_leader hleader
      have hexport := batch_export_of_leader hleader
      obtain ⟨hsound, faulty, rest, rfl, hfaults⟩ := List.find?_eq_some_iff_append.1 hleader
      have hfaults : ∀ request ∈ faulty, request.isSound = false := by
        simpa using hfaults
      have hnone : faulty.map (fun _ => false) = faulty.map (suits leader.exported) := by
        apply List.map_congr_left
        intro request hmem
        simp [suits, hfaults request hmem]
      -- the table is still empty when the leader comes, so the leader is accepted as it is
      obtain ⟨htable, hfirst⟩ :=
        attempt_all_of_faults hfaults traceAll (newEmpty symbol name rootName)
      obtain ⟨houtcomes, hconstructors, hlast⟩ :=
        @attempt_all_of_leader (newEmpty symbol name rootName) leader hname rfl hsound traceAll rest
      rw [hexport, hadmitted, List.filter_append, filter_suits_of_faults hfaults,
        List.nil_append, attempt_all_append, htable]
      refine ⟨?_, hconstructors, hlast⟩
      rw [List.map_append, List.map_append, hfirst, houtcomes, hnone]

/-- A table named `reg8` that is asked for a pattern with an empty block, for two exports of four
bytes, and for a constructor that exports nothing, takes in the two in the middle. -/
theorem attempt_all_reg8 :
    isValidName "reg8" = true ∧
      let requests : List Request :=
        [⟨{ pattern := [{ elements := [] }] }, .unknown⟩,
          ⟨{ execution? := some { exportStatement? := some ⟨.constant, ⟨4, by decide⟩⟩ } },
            .unknown⟩,
          ⟨{ execution? := some { exportStatement? := some ⟨.temporary, ⟨4, by decide⟩⟩ } },
            .unknown⟩,
          ⟨{}, .unknown⟩]
      let (table, outcomes) := (newEmpty ⟨1⟩ "reg8" "instruction").attemptAll false requests
      outcomes.map Except.isOk = [false, true, true, false] ∧
        table.constructors = (requests.drop 1 |>.take 2).filterMap Request.constructor? ∧
        table.exported = .sized .multiple ⟨4, by decide⟩ := by
  have hname : isValidName "reg8" = true := by decide
  refine ⟨hname, ?_⟩
  intro requests
  obtain ⟨houtcomes, hconstructors, hexported⟩ :=
    attempt_all_eq_batch false ⟨1⟩ "reg8" "instruction" requests hname
  exact ⟨houtcomes.trans (by decide), hconstructors.trans (by decide), hexported.trans (by decide)⟩

end DecodeTables.Table
