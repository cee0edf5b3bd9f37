import DecodeTables.Pattern

/-!
# Patterns one after another

A pattern as written is elaborated block by block. What is kept of one block is no concern of the
next, except that a table is listed where it is first used. So a pattern that is written behind
another is elaborated as it would be on its own, and then put behind what the first one gave:
`elaborate_behind`. `elaborate_append` spells out what that means for faults, blocks and tables.
-/

namespace DecodeTables

/-- A fold that may fail commutes with a map of its states that commutes with every step. -/
theorem fold_map_eq {ε α σ τ : Type _} {step : σ → α → Except ε σ} {other : τ → α → Except ε τ}
    (map : σ → τ) (h : ∀ state item, other (map state) item = map <$> step state item)
    (items : List α) (start : σ) :
    items.foldlM other (map start) = map <$> items.foldlM step start := by
  induction items generalizing start with
  | nil => rfl
  | cons item items ih =>
      rw [List.foldlM_cons, List.foldlM_cons, h]
      cases step start item with
      | error fault => rfl
      | ok next => exact ih next

namespace Pattern

/-- A pattern with another one behind it. Tables of both are listed where the first has them. -/
def concat (first second : Pattern) : Pattern where
  blocks := first.blocks ++ second.blocks
  subTables := first.subTables ++ second.subTables.filter (· ∉ first.subTables)

/-- A pattern without blocks changes nothing behind another one. -/
@[simp] theorem concat_empty (pattern : Pattern) : pattern.concat {} = pattern := by
  simp [concat]

/-- A block at the end of the second pattern is at the end of both. -/
theorem append_concat (first second : Pattern) (block : Block) :
    (first.concat second).append block = first.concat (second.append block) := by
  simp only [append, concat, List.append_assoc, foldl_add_new_append_filter]

theorem constraint_count_concat (first second : Pattern) :
    (first.concat second).constraintCount = first.constraintCount + second.constraintCount := by
  simp only [constraintCount, concat, List.flatMap_append, List.length_append]

theorem is_epsilon_concat_iff (first second : Pattern) :
    (first.concat second).isEpsilon = true ↔
      first.isEpsilon = true ∧ second.isEpsilon = true := by
  simp only [isEpsilon, concat, List.isEmpty_iff, List.append_eq_nil_iff]

/-- What is written behind another pattern is elaborated on its own and put behind the other. -/
theorem elaborate_behind (first second : Written) (loc : Location) :
    elaborate (first ++ second) loc =
      elaborate first loc >>= fun head => head.concat <$> elaborate second loc := by
  rw [elaborate, List.foldlM_append]
  refine bind_congr fun head => ?_
  -- with what the first pattern gave in front, each block of the second is taken in as before
  have hstep : ∀ pattern block,
      (head.concat pattern).append <$> Block.elaborate loc block =
        head.concat <$> (pattern.append <$> Block.elaborate loc block) := by
    intro pattern block
    cases Block.elaborate loc block with
    | error fault => rfl
    | ok block => exact congrArg Except.ok (append_concat head pattern block)
  have hfold :
      second.foldlM (fun pattern block => pattern.append <$> Block.elaborate loc block)
          (head.concat {}) =
        head.concat <$> elaborate second loc :=
    fold_map_eq head.concat hstep second {}
  rw [concat_empty] at hfold
  exact hfold

/-- Two patterns one after another have the first fault of the first one, and if it has none that of
the second one. If neither has a fault, what the second one gives comes behind what the first one
gives, and tables of the first are not listed again. -/
theorem elaborate_append (first second : Written) (loc : Location) :
    (∀ fault, elaborate first loc = .error fault →
        elaborate (first ++ second) loc = .error fault) ∧
      (∀ head fault, elaborate first loc = .ok head → elaborate second loc = .error fault →
        elaborate (first ++ second) loc = .error fault) ∧
      ∀ head tail, elaborate first loc = .ok head → elaborate second loc = .ok tail →
        ∃ whole, elaborate (first ++ second) loc = .ok whole ∧
          whole.blocks = head.blocks ++ tail.blocks ∧
          whole.subTables = head.subTables ++ tail.subTables.filter (· ∉ head.subTables) ∧
          whole.constraintCount = head.constraintCount + tail.constraintCount ∧
          (whole.isEpsilon = true ↔ head.isEpsilon = true ∧ tail.isEpsilon = true) := by
  rw [elaborate_behind]
  refine ⟨?_, ?_, ?_⟩
  · intro fault hfirst
    rw [hfirst]
    rfl
  · intro head fault hfirst hsecond
    rw [hfirst, hsecond]
    rfl
  · intro head tail hfirst hsecond
    rw [hfirst, hsecond]
    exact ⟨head.concat tail, rfl, rfl, rfl, constraint_count_concat head tail,
      is_epsilon_concat_iff head tail⟩

/-- A block without elements is the fault on either side, and a table that both sides use is listed
once. -/
theorem elaborate_append_reg_mem :
    let first : Written :=
      [{ elements := [⟨.constraint ⟨"op", .eq, 1⟩, .unknown⟩, ⟨.subTable "reg", .unknown⟩] }]
    let second : Written :=
      [{ elements := [⟨.subTable "mem", .unknown⟩, ⟨.subTable "reg", .unknown⟩] }]
    let broken : Written := [{ loc := ⟨1, 2, 3⟩ }]
    let fault : Fault := ⟨.emptyBlock, "", ⟨1, 2, 3⟩⟩
    elaborate broken .unknown = .error fault ∧
      elaborate (broken ++ second) .unknown = .error fault ∧
      elaborate (first ++ broken) .unknown = .error fault ∧
      ∃ whole, elaborate (first ++ second) .unknown = .ok whole ∧
        whole.subTables = ["reg", "mem"] ∧ whole.constraintCount = 1 ∧
        ¬ whole.isEpsilon = true := by
  intro first second broken fault
  obtain ⟨whole, hwhole, -, htables, hcount, hepsilon⟩ :=
    (elaborate_append first second .unknown).2.2 _ _ rfl rfl
  refine ⟨rfl, (elaborate_append broken second .unknown).1 fault rfl,
    (elaborate_append first broken .unknown).2.1 _ fault rfl rfl, whole, hwhole, htables, hcount,
    ?_⟩
  rw [hepsilon]
  decide

end Pattern

end DecodeTables
