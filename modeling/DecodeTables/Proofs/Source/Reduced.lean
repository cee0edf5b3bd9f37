import DecodeTables.Proofs.Source.Segments

/-!
# Segments that are kept, and how they are written

The segments that are kept of a path are `Reduced`: they are names, and perhaps `..` in front of
them, which an absolute path does not have. `Reduced.takes` says what a further segment does to
them. It leaves them reduced, `Reduced.push`, and reduced segments are kept as they are,
`Reduced.push_all_reverse`. `Writable.split_write` says which segments are read off what is written,
`exists_spelled` and `Writable.of_spelled` which segments can be.
-/

namespace DecodeTables.Path

/-- Says that kept segments, the last of which comes first, are neither empty nor `.`, that none but
`..` is in front of a `..`, and that there is no `..` if they start at the root. -/
structure Reduced (absolute : Bool) (kept : List (List Char)) : Prop where
  solid : ∀ segment ∈ kept, segment ≠ [] ∧ segment ≠ current ∧ '/' ∉ segment
  parents : kept.Pairwise fun later earlier => later = parent → earlier = parent
  rooted : absolute = true → parent ∉ kept

/-- `Takes absolute kept segment after` says that `after` is kept once the next segment of a path is
taken into reduced segments. -/
inductive Takes (absolute : Bool) :
    List (List Char) → List Char → List (List Char) → Prop where
  /-- An empty segment and `.` stay in place. -/
  | blank {kept segment} (h : segment = [] ∨ segment = current) : Takes absolute kept segment kept
  /-- A `..` goes up from a name. -/
  | up {name kept} (h : name ≠ parent) : Takes absolute (name :: kept) parent kept
  /-- A `..` stays at the root. -/
  | root (h : absolute = true) : Takes absolute [] parent []
  /-- A `..` goes further up from where the path begins. -/
  | climb {kept} (hrelative : absolute = false) (hall : ∀ earlier ∈ kept, earlier = parent) :
      Takes absolute kept parent (parent :: kept)
  /-- A name goes down. -/
  | name {kept segment} (h : isName segment = true) : Takes absolute kept segment (segment :: kept)

/-- Says that reduced segments are to be written with a slash at the end only if the last of them is
a name. -/
structure Writable (absolute closed : Bool) (kept : List (List Char)) : Prop
    extends Reduced absolute kept where
  ends_in_name : closed = true → endsInName kept = true

/-- The segments of what is written, the first of which comes first in `parts`. There is one more in
front of the slash at the beginning and one behind the slash at the end, and one where no other
is. -/
def spelled (absolute closed : Bool) (parts : List (List Char)) : List (List Char) :=
  (if absolute then [[]] else []) ++ parts ++ if closed ∨ parts = [] then [[]] else []

variable {absolute closed : Bool} {segment : List Char} {kept parts : List (List Char)}

theorem spelled_ne_nil : spelled absolute closed parts ≠ [] := by
  rw [spelled]
  by_cases hparts : parts = [] <;> simp [hparts]

theorem mem_spelled (h : segment ∈ spelled absolute closed parts) :
    segment = [] ∨ segment ∈ parts := by
  simp only [spelled, List.mem_append, List.mem_ite_nil_right, List.mem_singleton] at h
  obtain (⟨-, h⟩ | h) | ⟨-, h⟩ := h
  · exact .inl h
  · exact .inr h
  · exact .inl h

/-- A segment that has others on both sides is not that of a slash at the ends. -/
theorem mem_of_mem_inside (h : segment ∈ (spelled absolute closed parts).tail.dropLast) :
    segment ∈ parts := by
  have hfront : segment ∈ (parts ++ if closed ∨ parts = [] then [[]] else []).dropLast := by
    cases absolute with
    | true => exact h
    | false =>
        rw [← List.tail_dropLast] at h
        exact List.mem_of_mem_tail h
  by_cases hend : closed ∨ parts = []
  · rwa [if_pos hend, List.dropLast_concat] at hfront
  · rw [if_neg hend, List.append_nil] at hfront
    exact List.dropLast_subset parts hfront

/-- A step that empty segments do not matter to does not see where there are more of them. -/
theorem foldl_spelled {α : Type} {step : α → List Char → α} (hstep : ∀ state, step state [] = state)
    (state : α) : (spelled absolute closed parts).foldl step state = parts.foldl step state := by
  have hempty (condition : Prop) [Decidable condition] (state : α) :
      (if condition then [[]] else []).foldl step state = state := by
    split
    · exact hstep state
    · rfl
  rw [spelled, List.foldl_append, List.foldl_append, hempty, hempty]

theorem is_name_iff :
    isName segment = true ↔ segment ≠ [] ∧ segment ≠ current ∧ segment ≠ parent := by
  rw [isName, Bool.and_eq_true, Bool.and_eq_true, bne_iff_ne, bne_iff_ne, bne_iff_ne, and_assoc]

theorem reduced_nil (absolute : Bool) : Reduced absolute [] where
  solid _ hmem := absurd hmem List.not_mem_nil
  parents := .nil
  rooted _ := List.not_mem_nil

theorem reduced_cons_iff :
    Reduced absolute (segment :: kept) ↔
      (segment ≠ [] ∧ segment ≠ current ∧ '/' ∉ segment) ∧
        (segment = parent → absolute = false ∧ ∀ earlier ∈ kept, earlier = parent) ∧
        Reduced absolute kept := by
  constructor
  · rintro ⟨hsolid, hparents, hrooted⟩
    rw [List.forall_mem_cons] at hsolid
    rw [List.pairwise_cons] at hparents
    simp only [List.mem_cons, not_or] at hrooted
    refine ⟨hsolid.1, ?_, hsolid.2, hparents.2, fun habsolute => (hrooted habsolute).2⟩
    intro hparent
    refine ⟨?_, fun earlier hmem => hparents.1 earlier hmem hparent⟩
    rw [← Bool.not_eq_true]
    exact fun habsolute => (hrooted habsolute).1 hparent.symm
  · rintro ⟨hsegment, hparent, hsolid, hparents, hrooted⟩
    refine ⟨List.forall_mem_cons.2 ⟨hsegment, hsolid⟩, List.pairwise_cons.2 ⟨?_, hparents⟩, ?_⟩
    · exact fun earlier hmem hsame => (hparent hsame).2 earlier hmem
    · rintro rfl
      rw [List.mem_cons, not_or]
      exact ⟨fun hsame => Bool.noConfusion (hparent hsame.symm).1, hrooted rfl⟩

/-- The last of reduced segments is a name exactly if it is not `..`. -/
theorem Reduced.ends_in_name_iff (h : Reduced absolute kept) :
    endsInName kept = true ↔ ∃ name rest, kept = name :: rest ∧ name ≠ parent := by
  cases kept with
  | nil => simp [endsInName]
  | cons segment rest =>
      obtain ⟨⟨hempty, hcurrent, -⟩, -, -⟩ := reduced_cons_iff.1 h
      simp [endsInName, is_name_iff, hempty, hcurrent]

/-- A further segment of a path does one of five things to reduced segments. -/
theorem Reduced.takes (h : Reduced absolute kept) (segment : List Char) :
    Takes absolute kept segment (push absolute kept segment) := by
  by_cases hblank : segment = [] ∨ segment = current
  · rw [push, if_pos hblank]
    exact .blank hblank
  by_cases hparent : segment = parent
  · rw [push, if_neg hblank, if_pos hparent, hparent]
    by_cases hname : endsInName kept = true
    · obtain ⟨name, rest, rfl, hne⟩ := h.ends_in_name_iff.1 hname
      rw [if_pos hname]
      exact .up hne
    · -- without a name at the end there are only `..`
      have hall : ∀ earlier ∈ kept, earlier = parent := by
        cases kept with
        | nil => exact fun _ hmem => absurd hmem List.not_mem_nil
        | cons last rest =>
            have hlast : last = parent := Decidable.byContradiction fun hne =>
              hname (h.ends_in_name_iff.2 ⟨last, rest, rfl, hne⟩)
            exact List.forall_mem_cons.2 ⟨hlast, ((reduced_cons_iff.1 h).2.1 hlast).2⟩
      rw [if_neg hname]
      cases absolute with
      | false => exact .climb rfl hall
      | true =>
          obtain rfl : kept = [] := List.eq_nil_iff_forall_not_mem.2 fun earlier hmem =>
            h.rooted rfl (hall earlier hmem ▸ hmem)
          exact .root rfl
  · rw [push, if_neg hblank, if_neg hparent]
    rw [not_or] at hblank
    exact .name (is_name_iff.2 ⟨hblank.1, hblank.2, hparent⟩)

/-- A further segment leaves reduced segments reduced. -/
theorem Reduced.push (h : Reduced absolute kept) (hsegment : '/' ∉ segment) :
    Reduced absolute (push absolute kept segment) := by
  have htakes := h.takes segment
  generalize Path.push absolute kept segment = after at htakes ⊢
  cases htakes with
  | blank => exact h
  | up => exact (reduced_cons_iff.1 h).2.2
  | root => exact h
  | climb hrelative hall => exact reduced_cons_iff.2 ⟨by decide, fun _ => ⟨hrelative, hall⟩, h⟩
  | name hname =>
      obtain ⟨hempty, hcurrent, hparent⟩ := is_name_iff.1 hname
      exact reduced_cons_iff.2
        ⟨⟨hempty, hcurrent, hsegment⟩, fun hsame => absurd hsame hparent, h⟩

theorem Reduced.push_all (h : Reduced absolute kept) (hparts : ∀ segment ∈ parts, '/' ∉ segment) :
    Reduced absolute (parts.foldl (Path.push absolute) kept) := by
  induction parts generalizing kept with
  | nil => exact h
  | cons segment parts ih =>
      rw [List.forall_mem_cons] at hparts
      exact ih (h.push hparts.1) hparts.2

/-- Reduced segments that are taken one after another are all kept. -/
theorem Reduced.push_all_reverse (h : Reduced absolute kept) :
    kept.reverse.foldl (Path.push absolute) [] = kept := by
  induction kept with
  | nil => rfl
  | cons segment kept ih =>
      obtain ⟨⟨hempty, hcurrent, -⟩, hparent, hkept⟩ := reduced_cons_iff.1 h
      rw [List.reverse_cons, List.foldl_append, ih hkept]
      show Path.push absolute kept segment = segment :: kept
      have htakes := hkept.takes segment
      generalize Path.push absolute kept segment = after at htakes ⊢
      cases htakes with
      | blank hblank => exact absurd hblank (not_or.2 ⟨hempty, hcurrent⟩)
      | up hname => exact absurd ((hparent rfl).2 _ List.mem_cons_self) hname
      | root habsolute =>
          rw [(hparent rfl).1] at habsolute
          cases habsolute
      | climb | name => rfl

namespace Writable

theorem kept_ne_nil (h : Writable absolute closed kept) (hclosed : closed = true) : kept ≠ [] := by
  rintro rfl
  cases h.ends_in_name hclosed

/-- What is written has the spelled segments between its slashes. -/
theorem write_eq_intercalate (h : Writable absolute closed kept) :
    write absolute kept closed = ['/'].intercalate (spelled absolute closed kept.reverse) := by
  by_cases hkept : kept = []
  · have hopen : closed = false := by
      rw [← Bool.not_eq_true]
      exact fun hclosed => h.kept_ne_nil hclosed hkept
    rw [hkept, hopen]
    cases absolute <;> rfl
  · have hparts : kept.reverse ≠ [] := fun hnil => hkept (List.reverse_eq_nil_iff.1 hnil)
    have hend : ['/'].intercalate
        (kept.reverse ++ if closed ∨ kept.reverse = [] then [[]] else []) =
        ['/'].intercalate kept.reverse ++ if closed then ['/'] else [] := by
      cases closed with
      | false => simp [hkept]
      | true => exact intercalate_append hparts (List.cons_ne_nil [] [])
    have hall : kept.reverse ++ (if closed ∨ kept.reverse = [] then [[]] else []) ≠ [] :=
      List.append_ne_nil_of_left_ne_nil hparts _
    rw [write, spelled, List.append_assoc, List.append_assoc, ← hend]
    cases absolute with
    | false => rfl
    | true => exact (intercalate_empty_cons hall).symm

/-- So these segments are read off what is written. -/
theorem split_write (h : Writable absolute closed kept) :
    (write absolute kept closed).splitOn '/' = spelled absolute closed kept.reverse := by
  rw [h.write_eq_intercalate]
  refine List.splitOn_intercalate '/' ?_ spelled_ne_nil
  intro segment hmem
  rcases mem_spelled hmem with rfl | hmem
  · exact List.not_mem_nil
  · exact (h.solid segment (List.mem_reverse.1 hmem)).2.2

/-- What is written begins with a slash exactly if it is meant to be absolute. -/
theorem head_write (h : Writable absolute closed kept) :
    (write absolute kept closed).head? = some '/' ↔ absolute = true := by
  rw [head_eq_slash_iff, h.split_write]
  constructor
  · rintro ⟨rest, hrest, hspelled⟩
    cases absolute with
    | true => rfl
    | false =>
        cases hkept : kept.reverse with
        | nil =>
            have hnil : rest = [] := by simpa [spelled, hkept] using hspelled
            exact absurd hnil hrest
        | cons segment others =>
            -- the first of the segments would be empty
            rw [hkept] at hspelled
            have hmem : [] ∈ kept := by
              rw [← List.mem_reverse, hkept, (List.cons.inj hspelled).1]
              exact List.mem_cons_self
            exact absurd rfl (h.solid [] hmem).1
  · rintro rfl
    refine ⟨kept.reverse ++ if closed ∨ kept.reverse = [] then [[]] else [], ?_, rfl⟩
    by_cases hkept : kept.reverse = []
    · simp [hkept]
    · exact List.append_ne_nil_of_left_ne_nil hkept _

/-- There is a slash at the end exactly if one is meant to be. -/
theorem closed_write (h : Writable absolute closed kept) :
    (!((write absolute kept closed).splitOn '/').getLast?.any isName && endsInName kept) =
      closed := by
  rw [h.split_write]
  cases closed with
  | true => simp [spelled, h.ends_in_name rfl, isName]
  | false =>
      cases kept with
      | nil => exact Bool.and_false _
      | cons segment rest => simp [spelled, endsInName]

/-- Only `..` is in front of a `..`, and so is no slash at the beginning. -/
theorem parents_spelled (h : Writable absolute closed kept) :
    (spelled absolute closed kept.reverse).Pairwise fun earlier later =>
      later = parent → earlier = parent := by
  rw [spelled, List.pairwise_append, List.pairwise_append]
  refine ⟨⟨?_, List.pairwise_reverse.2 h.parents, ?_⟩, ?_, ?_⟩
  · cases absolute <;> simp
  · intro earlier hearlier later hlater hparent
    cases absolute with
    | true => exact absurd (hparent ▸ List.mem_reverse.1 hlater) (h.rooted rfl)
    | false => cases hearlier
  · split <;> simp
  · intro earlier hearlier later hlater hparent
    split at hlater
    · rw [hparent] at hlater
      cases List.mem_singleton.1 hlater
    · cases hlater

/-- There is no slash at the end behind a `..`. -/
theorem not_closed_parent (h : Writable absolute closed kept) :
    ¬ [parent, []] <:+ spelled absolute closed kept.reverse := by
  rintro ⟨front, hends⟩
  cases closed with
  | true =>
      obtain ⟨name, rest, rfl, hname⟩ := h.ends_in_name_iff.1 (h.ends_in_name rfl)
      have hlast := congrArg (fun parts => parts.dropLast.getLast?) hends
      exact hname (by simpa [spelled] using hlast.symm)
  | false =>
      have hmem : parent ∈ spelled absolute false kept.reverse := by
        rw [← hends]
        exact List.mem_append_right front List.mem_cons_self
      rcases mem_spelled hmem with hempty | hkept
      · cases hempty
      · cases kept with
        | nil => cases hkept
        | cons name rest =>
            -- the last of the segments would be empty
            have hlast := congrArg List.getLast? hends
            exact (h.solid name List.mem_cons_self).1 (by simpa [spelled] using hlast.symm)

/-- Conversely, segments are reduced, and may be written with a slash at the end, if what is spelled
of them has only `..` in front of a `..` and no slash at the end behind one. -/
theorem of_spelled (hsolid : ∀ segment ∈ parts, segment ≠ [] ∧ segment ≠ current ∧ '/' ∉ segment)
    (hparents : (spelled absolute closed parts).Pairwise fun earlier later =>
      later = parent → earlier = parent)
    (hsome : closed = true → parts ≠ []) (hend : ¬ [parent, []] <:+ spelled absolute closed parts) :
    Writable absolute closed parts.reverse := by
  rw [spelled, List.pairwise_append, List.pairwise_append] at hparents
  obtain ⟨⟨-, hparents, hfront⟩, -, -⟩ := hparents
  have hreduced : Reduced absolute parts.reverse := by
    refine ⟨?_, List.pairwise_reverse.2 hparents, ?_⟩
    · exact fun segment hmem => hsolid segment (List.mem_reverse.1 hmem)
    · rintro rfl hmem
      cases hfront [] (List.mem_singleton_self _) parent (List.mem_reverse.1 hmem) rfl
  refine ⟨hreduced, ?_⟩
  rintro rfl
  obtain ⟨front, last, rfl⟩ : ∃ front last, parts = front ++ [last] :=
    ⟨_, _, (List.dropLast_concat_getLast (hsome rfl)).symm⟩
  refine hreduced.ends_in_name_iff.2 ⟨last, front.reverse, List.reverse_concat .., ?_⟩
  -- otherwise there would be `../` at the end
  rintro rfl
  refine hend ⟨(if absolute then [[]] else []) ++ front, ?_⟩
  simp [spelled]

end Writable

/-- Segments that are empty only at the beginning and at the end are spelled. -/
theorem exists_spelled {segments : List (List Char)} (hsome : segments ≠ [])
    (hinside : [] ∉ segments.tail.dropLast) :
    ∃ absolute closed parts, spelled absolute closed parts = segments ∧ [] ∉ parts ∧
      (closed = true → parts ≠ []) := by
  obtain ⟨first, rest, rfl⟩ := List.exists_cons_of_ne_nil hsome
  rw [List.tail_cons] at hinside
  by_cases hrest : rest = []
  · rw [hrest]
    by_cases hfirst : first = []
    · exact ⟨false, false, [], by simp [spelled, hfirst]⟩
    · exact ⟨false, false, [first], by simp [spelled, Ne.symm hfirst]⟩
  · obtain ⟨middle, last, rfl⟩ : ∃ middle last, rest = middle ++ [last] :=
      ⟨_, _, (List.dropLast_concat_getLast hrest).symm⟩
    rw [List.dropLast_concat] at hinside
    by_cases hfirst : first = [] <;> by_cases hlast : last = []
    · by_cases hmiddle : middle = []
      · exact ⟨true, false, [], by simp [spelled, hfirst, hlast, hmiddle]⟩
      · exact ⟨true, true, middle, by simp [spelled, hfirst, hlast, hmiddle, hinside]⟩
    · exact ⟨true, false, middle ++ [last], by simp [spelled, hfirst, hinside, Ne.symm hlast]⟩
    · exact ⟨false, true, first :: middle, by simp [spelled, hlast, hinside, Ne.symm hfirst]⟩
    · exact ⟨false, false, first :: (middle ++ [last]),
        by simp [spelled, hinside, Ne.symm hfirst, Ne.symm hlast]⟩

end DecodeTables.Path
