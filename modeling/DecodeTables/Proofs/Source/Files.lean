import DecodeTables.Proofs.Interner.Calls
import DecodeTables.Source.Files

/-!
# Runs of registrations of files

A file is registered by interning the normal form of its path, so registering files is a run of
calls to an interner, `paths_add_all`. The number of a file is the place of its path among all
paths, `path_eq_some_iff`, and the path of a number does not change, `path_add_all`. So what numbers
a run gives can be read off the paths, `ids_add_all`. `add_all_numbers` puts this together.
-/

namespace DecodeTables.SourceFiles

/-- Makes the files at `paths` known, in order. Gives the files afterwards, and the numbers of those
at `paths`. -/
def addAll (files : SourceFiles) : List String → SourceFiles × List Nat
  | [] => (files, [])
  | path :: paths =>
      let (next, id) := files.add path
      let (last, ids) := next.addAll paths
      (last, id :: ids)

variable {files : SourceFiles} {name : String} {id : Nat}

/-- The number of a file is the place of its path among all paths, counted from one. -/
theorem path_eq_some_iff :
    files.path? id = some name ↔
      name ∈ files.paths.texts ∧ id = files.paths.texts.idxOf name + 1 := by
  rw [path?, ← Interner.find_eq_some_iff]
  constructor
  · intro hfind
    have hmem : name ∈ files.paths.texts := Interner.find_is_some_iff.1 (by rw [hfind]; rfl)
    rw [Interner.find_of_mem hmem] at hfind
    cases hfind
    exact ⟨hmem, rfl⟩
  · intro hthere
    obtain ⟨hmem, rfl⟩ := hthere
    exact Interner.find_of_mem hmem

/-- Registering files is interning the normal forms of their paths. -/
theorem paths_add_all (files : SourceFiles) (paths : List String) :
    (files.addAll paths).1.paths =
      (files.paths.callAll (paths.map fun path => .intern (Path.normal path))).1 := by
  induction paths generalizing files with
  | nil => rfl
  | cons path paths ih => exact ih (files.add path).1

/-- So it lists the normal forms that are new. -/
theorem texts_add_all (files : SourceFiles) (paths : List String) :
    (files.addAll paths).1.paths.texts =
      (paths.map Path.normal).foldl addNew files.paths.texts := by
  rw [paths_add_all, Interner.texts_call_all, List.filterMap_map]
  exact congrArg (List.foldl addNew _) (congrFun List.filterMap_eq_map' paths)

theorem mem_texts_add_all {paths : List String} {path : String} (h : path ∈ paths) :
    Path.normal path ∈ (files.addAll paths).1.paths.texts := by
  rw [texts_add_all, mem_foldl_add_new]
  exact .inr (List.mem_map_of_mem h)

/-- A file has the normal form of its path. -/
theorem path_add_self (files : SourceFiles) (path : String) :
    (files.add path).1.path? (files.add path).2 = some (Path.normal path) :=
  Interner.find_eq_some_iff.1 (Interner.find_insert_self files.paths (Path.normal path))

/-- A file keeps its path, whatever files are registered. -/
theorem path_add_all (h : files.path? id = some name) (paths : List String) :
    (files.addAll paths).1.path? id = some name := by
  rw [path?, paths_add_all]
  exact Interner.lookup_call_all h _

/-- Files get the places that their paths have among all paths in the end. -/
theorem ids_add_all (files : SourceFiles) (paths : List String) :
    (files.addAll paths).2 = paths.map fun path =>
      (files.addAll paths).1.paths.texts.idxOf (Path.normal path) + 1 := by
  induction paths generalizing files with
  | nil => rfl
  | cons path paths ih =>
      have hpath := path_add_all (path_add_self files path) paths
      show (files.add path).2 :: ((files.add path).1.addAll paths).2 = _
      rw [ih, (path_eq_some_iff.1 hpath).2]
      rfl

/-- A number that was given to a file is the number of one. -/
theorem path_of_id {paths : List String} (h : id ∈ (files.addAll paths).2) :
    ∃ path ∈ paths, (files.addAll paths).1.path? id = some (Path.normal path) := by
  rw [ids_add_all, List.mem_map] at h
  obtain ⟨path, hmem, rfl⟩ := h
  exact ⟨path, hmem, path_eq_some_iff.2 ⟨mem_texts_add_all hmem, rfl⟩⟩

/-- If there were no files before, no other number is the number of a file. -/
theorem mem_ids_iff {paths : List String} :
    id ∈ (({} : SourceFiles).addAll paths).2 ↔
      ∃ name, (({} : SourceFiles).addAll paths).1.path? id = some name := by
  constructor
  · intro hid
    obtain ⟨path, -, hpath⟩ := path_of_id hid
    exact ⟨_, hpath⟩
  · rintro ⟨name, hname⟩
    obtain ⟨hin, rfl⟩ := path_eq_some_iff.1 hname
    have hgiven := hin
    rw [texts_add_all] at hgiven
    obtain ⟨path, hpaths, rfl⟩ := List.mem_map.1 (mem_first_uses.1 hgiven)
    rw [ids_add_all, List.mem_map]
    exact ⟨path, hpaths, rfl⟩

/-- Registering a path whose normal form is known changes nothing and gives its number. -/
theorem add_of_path {path : String} (h : files.path? id = some (Path.normal path)) :
    files.add path = (files, id) := by
  rw [add, Interner.intern_of_find (Interner.find_eq_some_iff.2 h)]

/-- Files that are registered one after another are numbered 1, 2, 3, … in order of first
registration, by numbers that have 32 bits if there are not too many files. Two of them have the
same number exactly if their paths have the same normal form. This is the path that each file has
from then on, whatever is registered later, and no other number has a path. Registering a known path
again changes nothing. -/
theorem add_all_numbers (paths later : List String)
    (hfew : (firstUses (paths.map Path.normal)).length < UInt32.size - 1) :
    let names := firstUses (paths.map Path.normal)
    let files := (({} : SourceFiles).addAll paths).1
    let ids := (({} : SourceFiles).addAll paths).2
    let after := (files.addAll later).1
    (ids = paths.map fun path => names.idxOf (Path.normal path) + 1) ∧
      (∀ id ∈ ids, 0 < id ∧ id < UInt32.size - 1) ∧
      (∀ (first second : Nat) (path other : String),
        paths[first]? = some path → paths[second]? = some other →
          (ids[first]? = ids[second]? ↔ Path.normal path = Path.normal other)) ∧
      (∀ (place : Nat) (path : String) (id : Nat),
        paths[place]? = some path → ids[place]? = some id →
          files.path? id = some (Path.normal path) ∧ after.path? id = some (Path.normal path)) ∧
      files.path? 0 = none ∧ (∀ id, files.path? id = none ↔ id ∉ ids) ∧
      ∀ path, Path.normal path ∈ names →
        files.add path = (files, names.idxOf (Path.normal path) + 1) := by
  intro names files ids after
  have hnames : files.paths.texts = names := texts_add_all {} paths
  have hids : ids = paths.map fun path => names.idxOf (Path.normal path) + 1 := by
    rw [← hnames]
    exact ids_add_all {} paths
  have hget {place : Nat} {path : String} (h : paths[place]? = some path) :
      ids[place]? = some (names.idxOf (Path.normal path) + 1) := by
    rw [hids, List.getElem?_map, h]
    rfl
  have hmem {path : String} (h : path ∈ paths) : Path.normal path ∈ names :=
    mem_first_uses.2 (List.mem_map_of_mem h)
  have hpath {name : String} (h : name ∈ names) :
      files.path? (names.idxOf name + 1) = some name := by
    rw [← hnames] at h ⊢
    exact path_eq_some_iff.2 ⟨h, rfl⟩
  refine ⟨hids, ?_, ?_, ?_, rfl, ?_, fun path h => add_of_path (hpath h)⟩
  · intro id hid
    rw [hids, List.mem_map] at hid
    obtain ⟨path, hin, rfl⟩ := hid
    exact ⟨Nat.succ_pos _, Nat.lt_of_le_of_lt (List.idxOf_lt_length_of_mem (hmem hin)) hfew⟩
  · intro first second path other hfirst hsecond
    rw [hget hfirst, hget hsecond, Option.some.injEq, Nat.add_right_cancel_iff]
    exact List.idxOf_inj (hmem (List.mem_of_getElem? hfirst))
  · intro place path id hplace hid
    rw [hget hplace, Option.some.injEq] at hid
    subst hid
    have hknown := hpath (hmem (List.mem_of_getElem? hplace))
    exact ⟨hknown, path_add_all hknown later⟩
  · intro id
    rw [mem_ids_iff, not_exists, Option.eq_none_iff_forall_ne_some]

/-- Three spellings of one path, and a path that is empty. -/
theorem add_all_numbers_spellings :
    let paths : List String := ["specs/../specs/x86.slaspec", "", "specs//x86.slaspec", "lib/."]
    let names := firstUses (paths.map Path.normal)
    let files := (({} : SourceFiles).addAll paths).1
    let ids := (({} : SourceFiles).addAll paths).2
    let after := (files.addAll ["a.sinc", "lib/"]).1
    names.length < UInt32.size - 1 ∧ ids = [1, 2, 1, 3] ∧
      files.path? 1 = some "specs/x86.slaspec" ∧ after.path? 1 = some "specs/x86.slaspec" ∧
      after.path? 3 = some "lib/" ∧ files.path? 4 = none ∧ after.path? 4 = some "a.sinc" ∧
      files.add "./specs/x86.slaspec" = (files, 1) := by
  intro paths names files ids after
  have hfew : names.length < UInt32.size - 1 := by decide
  obtain ⟨hids, -, -, hstays, -, hnone, hknown⟩ :=
    add_all_numbers paths ["a.sinc", "lib/"] hfew
  have hgiven : ids = [1, 2, 1, 3] := hids.trans (by decide)
  have hfour : 4 ∉ ids := by
    rw [hgiven]
    decide
  obtain ⟨hfirst, hafter⟩ :=
    hstays 0 "specs/../specs/x86.slaspec" 1 rfl (congrArg (·[0]?) hgiven)
  have hlast := (hstays 3 "lib/." 3 rfl (congrArg (·[3]?) hgiven)).2
  have hagain := hknown "./specs/x86.slaspec" (by decide)
  exact ⟨hfew, hgiven, hfirst.trans (by decide), hafter.trans (by decide), hlast.trans (by decide),
    (hnone 4).2 hfour, by decide, hagain.trans (congrArg _ (by decide))⟩

end DecodeTables.SourceFiles
