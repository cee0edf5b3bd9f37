import DecodeTables.Source.Path

/-!
# What segments tell about the text of a path

The segments of a path are what splitting it at its slashes gives, `segments_eq_split`, so they put
together are the path again. Segments that are empty show where a path has slashes: at its
beginning, `head_eq_slash_iff`, and two in a row, `double_slash_iff`.
-/

namespace DecodeTables.Path

variable {path segment : List Char} {first second : List (List Char)}

theorem segments_eq_split (path : List Char) : segments path = path.splitOn '/' := by
  induction path with
  | nil => rw [segments, List.splitOn_nil]
  | cons char rest ih =>
      rw [segments, List.splitOn_cons_eq_if_modifyHead, ih]
      simp only [beq_iff_eq]
      split
      · rfl
      · cases hrest : rest.splitOn '/' with
        | nil => exact absurd hrest (List.splitOn_ne_nil '/' rest)
        | cons segment others => rfl

/-- No segment goes on beyond a slash. -/
theorem slash_not_mem (h : segment ∈ path.splitOn '/') : '/' ∉ segment := by
  induction path generalizing segment with
  | nil =>
      rw [List.splitOn_nil, List.mem_singleton] at h
      rw [h]
      exact List.not_mem_nil
  | cons char rest ih =>
      rw [List.splitOn_cons_eq_if_modifyHead] at h
      split at h
      · rcases List.mem_cons.1 h with rfl | h
        · exact List.not_mem_nil
        · exact ih h
      · next hchar =>
        cases hrest : rest.splitOn '/' with
        | nil => exact absurd hrest (List.splitOn_ne_nil '/' rest)
        | cons next others =>
            rw [hrest] at h ih
            rcases List.mem_cons.1 h with rfl | h
            · have hnext : '/' ∉ next := ih List.mem_cons_self
              rw [List.mem_cons, not_or]
              exact ⟨fun hslash => hchar (beq_iff_eq.2 hslash.symm), hnext⟩
            · exact ih (List.mem_cons_of_mem _ h)

/-- Segments that are written out in two parts have a slash in between. -/
theorem intercalate_append (hfirst : first ≠ []) (hsecond : second ≠ []) :
    ['/'].intercalate (first ++ second) =
      ['/'].intercalate first ++ '/' :: ['/'].intercalate second := by
  induction first with
  | nil => exact absurd rfl hfirst
  | cons segment rest ih =>
      by_cases hrest : rest = []
      · rw [hrest, List.singleton_append, List.intercalate_cons_of_ne_nil hsecond,
          List.intercalate_singleton, List.append_assoc, List.singleton_append]
      · have hboth : rest ++ second ≠ [] := fun hnil => hrest (List.append_eq_nil_iff.1 hnil).1
        rw [List.cons_append, List.intercalate_cons_of_ne_nil hboth, ih hrest,
          List.intercalate_cons_of_ne_nil hrest, List.append_assoc, List.append_assoc,
          List.append_assoc]

/-- An empty segment in front of others is written as a slash. -/
theorem intercalate_empty_cons (h : second ≠ []) :
    ['/'].intercalate ([] :: second) = '/' :: ['/'].intercalate second :=
  List.intercalate_cons_of_ne_nil h

/-- A path begins with a slash exactly if its first segment is empty and not the only one. -/
theorem head_eq_slash_iff :
    path.head? = some '/' ↔ ∃ rest, rest ≠ [] ∧ path.splitOn '/' = [] :: rest := by
  constructor
  · intro hhead
    obtain ⟨rest, rfl⟩ := List.head?_eq_some_iff.1 hhead
    exact ⟨rest.splitOn '/', List.splitOn_ne_nil '/' rest, List.splitOn_append_cons_self [] rest⟩
  · rintro ⟨rest, hrest, hsplit⟩
    have hpath : ['/'].intercalate (path.splitOn '/') = path := List.intercalate_splitOn '/'
    rw [hsplit, intercalate_empty_cons hrest] at hpath
    rw [← hpath]
    rfl

/-- A path has two slashes in a row exactly if an empty segment has others on both sides. -/
theorem double_slash_iff :
    ['/', '/'] <:+: path ↔ [] ∈ (path.splitOn '/').tail.dropLast := by
  constructor
  · rintro ⟨before, after, rfl⟩
    have hsplit : (before ++ ['/', '/'] ++ after).splitOn '/' =
        before.splitOn '/' ++ [] :: after.splitOn '/' := by
      rw [List.append_assoc]
      exact (List.splitOn_append_cons_self before ('/' :: after)).trans
        (congrArg _ (List.splitOn_append_cons_self [] after))
    rw [hsplit]
    cases hbefore : before.splitOn '/' with
    | nil => exact absurd hbefore (List.splitOn_ne_nil '/' before)
    | cons first rest =>
        rw [List.cons_append, List.tail_cons, List.dropLast_append_of_ne_nil (List.cons_ne_nil _ _),
          List.dropLast_cons_of_ne_nil (List.splitOn_ne_nil '/' after)]
        exact List.mem_append_right _ List.mem_cons_self
  · intro hinside
    have hpath : ['/'].intercalate (path.splitOn '/') = path := List.intercalate_splitOn '/'
    cases hsplit : path.splitOn '/' with
    | nil => exact absurd hsplit (List.splitOn_ne_nil '/' path)
    | cons first rest =>
        rw [hsplit] at hinside hpath
        obtain ⟨middle, after, hmiddle⟩ := List.append_of_mem hinside
        have hrest : rest ≠ [] := by
          rintro rfl
          cases hinside
        obtain ⟨last, hlast⟩ : ∃ last, rest.dropLast ++ [last] = rest :=
          ⟨_, List.dropLast_concat_getLast hrest⟩
        rw [List.tail_cons] at hmiddle
        rw [hmiddle, List.append_assoc, List.cons_append] at hlast
        have hafter : after ++ [last] ≠ [] :=
          List.append_ne_nil_of_right_ne_nil _ (List.cons_ne_nil _ _)
        refine ⟨['/'].intercalate (first :: middle), ['/'].intercalate (after ++ [last]), ?_⟩
        calc ['/'].intercalate (first :: middle) ++ ['/', '/'] ++
              ['/'].intercalate (after ++ [last])
            = ['/'].intercalate (first :: middle) ++
                '/' :: ['/'].intercalate ([] :: (after ++ [last])) := by
              rw [intercalate_empty_cons hafter, List.append_assoc]
              rfl
          _ = ['/'].intercalate (first :: rest) := by
              rw [← intercalate_append (List.cons_ne_nil _ _) (List.cons_ne_nil _ _),
                List.cons_append, hlast]
          _ = path := hpath

end DecodeTables.Path
