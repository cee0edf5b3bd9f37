/-!
# Normal forms of file paths

A path is a text whose segments stand between slashes. Its normal form is another spelling of the
same place that can be read off the text alone:

* empty segments and segments `.` are dropped;
* a segment `..` removes the name before it, is dropped at the root, and stays where there is
  nothing to remove;
* a final slash stays, or is added, where the last segment was dropped and a name is left before it;
* a path that is not empty never becomes empty: what would be is written `.`.
-/

namespace DecodeTables.Path

/-- The segments of a path, those that are empty included, so that there is always one more than
there are slashes. -/
def segments : List Char → List (List Char)
  | [] => [[]]
  | char :: rest =>
    if char = '/' then [] :: segments rest
    else match segments rest with
      | [] => [[char]]
      | segment :: others => (char :: segment) :: others

/-- The segment that stays in place. -/
def current : List Char := ['.']

/-- The segment that goes up to the directory that holds the place before it. -/
def parent : List Char := ['.', '.']

/-- Says whether a segment is a name: neither empty, nor `.`, nor `..`. -/
def isName (segment : List Char) : Bool :=
  segment != [] && segment != current && segment != parent

/-- Says whether the last of the kept segments is a name. The last segment comes first in `kept`. -/
def endsInName (kept : List (List Char)) : Bool :=
  kept.head?.any isName

/-- Takes the next segment of a path into the segments kept so far, the last of which comes first
in `kept`. -/
def push (absolute : Bool) (kept : List (List Char)) (segment : List Char) : List (List Char) :=
  if segment = [] ∨ segment = current then kept
  else if segment = parent then
    if endsInName kept then kept.tail
    else if absolute then kept
    else segment :: kept
  else segment :: kept

/-- Writes out kept segments, the last of which comes first in `kept`. -/
def write (absolute : Bool) (kept : List (List Char)) (closed : Bool) : List Char :=
  (if absolute then ['/'] else []) ++ ['/'].intercalate kept.reverse ++
    (if closed then ['/'] else [])

/-- The normal form of the characters of a path. -/
def normalChars (path : List Char) : List Char :=
  let absolute := path.head? == some '/'
  let parts := segments path
  let kept := parts.foldl (push absolute) []
  let closed := !parts.getLast?.any isName && endsInName kept
  let written := write absolute kept closed
  if path != [] && written == [] then current else written

/-- The normal form of a path. -/
def normal (path : String) : String :=
  String.ofList (normalChars path.toList)

end DecodeTables.Path
