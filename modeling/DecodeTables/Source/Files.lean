import DecodeTables.Interner
import DecodeTables.Source.Path

/-!
# The files of a specification

`SourceFiles` numbers the files of a specification by the normal form of their paths, so that two
spellings of one path name one file.
-/

namespace DecodeTables

/-- The files known so far, by the normal forms of their paths. -/
structure SourceFiles where
  paths : Interner := {}

namespace SourceFiles

/-- Gives the files once the file at `path` is known, and the number of that file. What happens when
numbers of 32 bits are used up is left out: after `2 ^ 32 - 1` files, a path that is not yet known
would get the number zero, and an error would be shown. -/
def add (files : SourceFiles) (path : String) : SourceFiles × Nat :=
  let (paths, symbol) := files.paths.intern (Path.normal path)
  ({ paths }, symbol.id)

/-- The normal form of the path of the file numbered `id`, if there is one. -/
def path? (files : SourceFiles) (id : Nat) : Option String :=
  files.paths.lookup? ⟨id⟩

end SourceFiles

end DecodeTables
