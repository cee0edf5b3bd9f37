import DecodeTables.Proofs.Source.Files
import DecodeTables.Proofs.Source.Reduced

/-!
# Paths in normal form

`IsNormal` says what a path in normal form looks like: it is `.` or what is written of reduced
segments, `is_normal_iff`. Every normal form looks like this, and a path that does is its own normal
form: `is_normal_normal` and `normal_eq_self_iff`. A normal form leads to the same place as the path
that it is made of, `destination_normal`. `normal_canonical` puts this together. As the paths that
files are registered under are in normal form, registering one of them again finds the file.
-/

namespace DecodeTables.Path

/-- The texts between the slashes of a path. -/
def components (path : String) : List (List Char) :=
  path.toList.splitOn '/'

/-- Says that a path does not have two slashes in a row, nor `.` between slashes unless it is just
that, nor anything but `..` in front of a `..`, nor a slash at the end behind a `..`. -/
structure IsNormal (path : String) : Prop where
  slashes : ¬ ['/', '/'] <:+: path.toList
  current : current ∈ components path → path = "."
  parents : (components path).Pairwise fun earlier later => later = parent → earlier = parent
  closed : ¬ [parent, []] <:+ components path

/-- Goes on from the directory `place` by a segment. A directory is given by the names that lead to
it from the root, the last of which comes first. The root is above itself. -/
def follow (place : List (List Char)) (segment : List Char) : List (List Char) :=
  if segment = [] ∨ segment = current then place
  else if segment = parent then place.tail
  else segment :: place

/-- The place that a path leads to from the directory `start`, or from the root if it is
absolute. -/
def destination (start : List (List Char)) (path : String) : List (List Char) :=
  (components path).foldl follow (if path.toList.head? = some '/' then [] else start)

/-- Says that characters are what is written of reduced segments. -/
def IsWritten (path : List Char) : Prop :=
  ∃ absolute closed kept, Writable absolute closed kept ∧ write absolute kept closed = path

/-- The segments that are kept of a path, the last of which comes first. -/
def keptOf (path : List Char) : List (List Char) :=
  (segments path).foldl (push (path.head? == some '/')) []

variable {absolute closed : Bool} {segment : List Char} {kept base : List (List Char)}
  {chars : List Char} {path : String}

theorem reduced_kept_of (chars : List Char) : Reduced (chars.head? == some '/') (keptOf chars) := by
  refine (reduced_nil _).push_all fun segment hmem => ?_
  rw [segments_eq_split] at hmem
  exact slash_not_mem hmem

/-- A normal form is what is written of the kept segments, or `.` if nothing is. -/
theorem normal_chars_eq (chars : List Char) :
    ∃ closed, Writable (chars.head? == some '/') closed (keptOf chars) ∧
      normalChars chars =
        if chars ≠ [] ∧ write (chars.head? == some '/') (keptOf chars) closed = [] then current
        else write (chars.head? == some '/') (keptOf chars) closed := by
  refine ⟨!(segments chars).getLast?.any isName && endsInName (keptOf chars),
    ⟨reduced_kept_of chars, fun hclosed => (Bool.and_eq_true_iff.1 hclosed).2⟩, ?_⟩
  simp only [normalChars, Bool.and_eq_true, bne_iff_ne, beq_iff_eq]
  rfl

/-- What is written of reduced segments is its own normal form. -/
theorem normal_chars_of_is_written (h : IsWritten chars) : normalChars chars = chars := by
  obtain ⟨absolute, closed, kept, hwritable, rfl⟩ := h
  have habsolute : ((write absolute kept closed).head? == some '/') = absolute := by
    rw [Bool.eq_iff_iff, beq_iff_eq]
    exact hwritable.head_write
  have hkept : (segments (write absolute kept closed)).foldl (push absolute) [] = kept := by
    have hempty (kept : List (List Char)) : push absolute kept [] = kept := if_pos (.inl rfl)
    rw [segments_eq_split, hwritable.split_write, foldl_spelled hempty]
    exact hwritable.push_all_reverse
  have hclosed : (!(segments (write absolute kept closed)).getLast?.any isName &&
      endsInName kept) = closed := by
    rw [segments_eq_split]
    exact hwritable.closed_write
  simp only [normalChars, habsolute, hkept, hclosed]
  simp

/-- Only the empty path has an empty normal form. -/
theorem normal_chars_eq_nil_iff : normalChars chars = [] ↔ chars = [] := by
  constructor
  · intro hempty
    obtain ⟨closed, -, hnormal⟩ := normal_chars_eq chars
    rw [hnormal] at hempty
    split at hempty
    · cases hempty
    · next hsome => exact Decidable.byContradiction fun hchars => hsome ⟨hchars, hempty⟩
  · rintro rfl
    rfl

/-- What is written of reduced segments is in normal form. -/
theorem is_normal_of_is_written (h : IsWritten path.toList) : IsNormal path := by
  obtain ⟨absolute, closed, kept, hwritable, hpath⟩ := h
  have hcomponents : components path = spelled absolute closed kept.reverse := by
    rw [components, ← hpath, hwritable.split_write]
  constructor
  · rw [double_slash_iff]
    intro hinside
    rw [← components, hcomponents] at hinside
    exact (hwritable.solid [] (List.mem_reverse.1 (mem_of_mem_inside hinside))).1 rfl
  · intro hcurrent
    rw [hcomponents] at hcurrent
    rcases mem_spelled hcurrent with hempty | hmem
    · cases hempty
    · exact absurd rfl (hwritable.solid current (List.mem_reverse.1 hmem)).2.1
  · rw [hcomponents]
    exact hwritable.parents_spelled
  · rw [hcomponents]
    exact hwritable.not_closed_parent

/-- A path in normal form other than `.` is what is written of reduced segments. -/
theorem IsNormal.is_written (h : IsNormal path) (hcurrent : path ≠ ".") :
    IsWritten path.toList := by
  obtain ⟨absolute, closed, parts, hsplit, hnonempty, hsome⟩ :=
    exists_spelled (List.splitOn_ne_nil '/' path.toList) (mt double_slash_iff.2 h.slashes)
  have hcomponents : components path = spelled absolute closed parts := hsplit.symm
  have hsolid (segment : List Char) (hmem : segment ∈ parts) :
      segment ≠ [] ∧ segment ≠ Path.current ∧ '/' ∉ segment := by
    have hcomponent : segment ∈ components path := by
      rw [hcomponents, spelled]
      exact List.mem_append_left _ (List.mem_append_right _ hmem)
    refine ⟨?_, ?_, slash_not_mem hcomponent⟩
    · rintro rfl
      exact hnonempty hmem
    · rintro rfl
      exact hcurrent (h.current hcomponent)
  have hwritable : Writable absolute closed parts.reverse :=
    .of_spelled hsolid (hcomponents ▸ h.parents) hsome (hcomponents ▸ h.closed)
  refine ⟨absolute, closed, parts.reverse, hwritable, ?_⟩
  rw [hwritable.write_eq_intercalate, List.reverse_reverse, hsplit]
  exact List.intercalate_splitOn '/'

theorem is_normal_iff : IsNormal path ↔ path = "." ∨ IsWritten path.toList := by
  constructor
  · intro hnormal
    by_cases hcurrent : path = "."
    · exact .inl hcurrent
    · exact .inr (hnormal.is_written hcurrent)
  · rintro (rfl | hwritten)
    · exact ⟨by decide, fun _ => rfl, by decide, by decide⟩
    · exact is_normal_of_is_written hwritten

/-- The normal form of a path is in normal form. -/
theorem is_normal_normal (path : String) : IsNormal (normal path) := by
  obtain ⟨closed, hwritable, hnormal⟩ := normal_chars_eq path.toList
  rw [is_normal_iff]
  split at hnormal
  · exact .inl (congrArg String.ofList hnormal)
  · refine .inr ⟨_, closed, _, hwritable, ?_⟩
    rw [normal, String.toList_ofList, hnormal]

/-- A path is its own normal form exactly if it is in normal form. -/
theorem normal_eq_self_iff : normal path = path ↔ IsNormal path := by
  constructor
  · intro hsame
    rw [← hsame]
    exact is_normal_normal path
  · intro hnormal
    rcases is_normal_iff.1 hnormal with rfl | hwritten
    · rfl
    · rw [normal, normal_chars_of_is_written hwritten, String.ofList_toList]

/-- Only the empty path has an empty normal form. -/
theorem normal_eq_empty_iff : normal path = "" ↔ path = "" := by
  rw [← String.toList_eq_nil_iff, normal, String.toList_ofList, normal_chars_eq_nil_iff,
    String.toList_eq_nil_iff]

/-- Going on by kept segments leads where the segments that they are kept of do. -/
theorem Reduced.follow_push (h : Reduced absolute kept) (hbase : absolute = true → base = [])
    (segment : List Char) :
    (Path.push absolute kept segment).reverse.foldl follow base =
      follow (kept.reverse.foldl follow base) segment := by
  have htakes := h.takes segment
  generalize Path.push absolute kept segment = after at htakes ⊢
  cases htakes with
  | blank hblank => exact (if_pos hblank).symm
  | @up name kept hname =>
      -- the name is gone down and up again
      obtain ⟨⟨hempty, hcurrent, -⟩, -, -⟩ := reduced_cons_iff.1 h
      rw [List.reverse_cons, List.foldl_append]
      show _ = follow (follow _ name) parent
      rw [follow.eq_def _ name, if_neg (not_or.2 ⟨hempty, hcurrent⟩), if_neg hname]
      rfl
  | root habsolute =>
      rw [hbase habsolute]
      rfl
  | climb | name => rw [List.reverse_cons, List.foldl_append]; rfl

/-- So the kept segments of a path lead where the path does. -/
theorem follow_push_all (h : Reduced absolute kept) (hbase : absolute = true → base = [])
    {parts : List (List Char)} (hparts : ∀ segment ∈ parts, '/' ∉ segment) :
    (parts.foldl (push absolute) kept).reverse.foldl follow base =
      parts.foldl follow (kept.reverse.foldl follow base) := by
  induction parts generalizing kept with
  | nil => rfl
  | cons segment parts ih =>
      rw [List.forall_mem_cons] at hparts
      rw [List.foldl_cons, List.foldl_cons, ih (h.push hparts.1) hparts.2, h.follow_push hbase]

/-- A normal form leads to the same place as the path that it is made of. -/
theorem destination_normal (start : List (List Char)) (path : String) :
    destination start (normal path) = destination start path := by
  obtain ⟨closed, hwritable, hnormal⟩ := normal_chars_eq path.toList
  have hpath : destination start path = (keptOf path.toList).reverse.foldl follow
      (if path.toList.head? = some '/' then [] else start) := by
    rw [destination, keptOf, segments_eq_split, components,
      follow_push_all (reduced_nil _) _ fun _ => slash_not_mem]
    · rfl
    · intro habsolute
      rw [if_pos (beq_iff_eq.1 habsolute)]
  have hwritten {other : String} (h : other.toList = write (path.toList.head? == some '/')
      (keptOf path.toList) closed) : destination start other = destination start path := by
    have hempty (place : List (List Char)) : follow place [] = place := if_pos (.inl rfl)
    rw [destination, components, h, hwritable.split_write, foldl_spelled hempty, hpath]
    simp only [hwritable.head_write, beq_iff_eq]
  split at hnormal
  · next hcurrent =>
    -- nothing would be written, so `.` leads to the same place as the empty path
    have hdot : normal path = "." := congrArg String.ofList hnormal
    calc destination start (normal path)
        = destination start "" := by rw [hdot]; rfl
      _ = destination start path := hwritten hcurrent.2.symm
  · refine hwritten ?_
    rw [normal, String.toList_ofList, hnormal]

/-- The normal form of a path is in normal form, is its own normal form, and is empty only for the
empty path. It leads to the same place as the path. So files that are registered one after another,
each under the normal form of its path, are found under the paths that they have: to register one of
these again changes nothing and gives the number of the file. -/
theorem normal_canonical (path : String) (paths : List String) :
    normal (normal path) = normal path ∧ (normal path = "" ↔ path = "") ∧
      IsNormal (normal path) ∧
      (∀ start, destination start (normal path) = destination start path) ∧
      let files := (({} : SourceFiles).addAll paths).1
      ∀ id ∈ (({} : SourceFiles).addAll paths).2,
        ∃ known, files.path? id = some known ∧ files.add known = (files, id) := by
  have hidem (path : String) : normal (normal path) = normal path :=
    normal_eq_self_iff.2 (is_normal_normal path)
  refine ⟨hidem path, normal_eq_empty_iff, is_normal_normal path,
    fun start => destination_normal start path, ?_⟩
  intro files id hid
  obtain ⟨path, -, hpath⟩ := SourceFiles.path_of_id hid
  refine ⟨normal path, hpath, SourceFiles.add_of_path ?_⟩
  rw [hidem]
  exact hpath

/-- A path whose names are removed by the `..` behind them, and the files at it and at the root. -/
theorem normal_canonical_climbing :
    let path := "../lib//a/b/.././../x86/."
    let files := (({} : SourceFiles).addAll [path, "/..", path]).1
    normal path = "../lib/x86/" ∧ normal (normal path) = "../lib/x86/" ∧ normal path ≠ "" ∧
      IsNormal (normal path) ∧
      destination [['d'], ['e']] (normal path) = ["x86".toList, "lib".toList, ['e']] ∧
      files.add "../lib/x86/" = (files, 1) ∧ files.add "/" = (files, 2) := by
  intro path files
  obtain ⟨hidem, hempty, hnormal, hplace, hfiles⟩ := normal_canonical path [path, "/..", path]
  have hpath : normal path = "../lib/x86/" := by decide
  have hsome : path ≠ "" := by decide
  have hid {id : Nat} {known : String}
      (hgiven : id ∈ (({} : SourceFiles).addAll [path, "/..", path]).2)
      (hknown : files.path? id = some known) : files.add known = (files, id) := by
    obtain ⟨other, hother, hadd⟩ := hfiles id hgiven
    cases hknown.symm.trans hother
    exact hadd
  exact ⟨hpath, hidem.trans hpath, mt hempty.1 hsome, hnormal, (hplace _).trans (by decide),
    hid (by decide) (by decide), hid (by decide) (by decide)⟩

end DecodeTables.Path
