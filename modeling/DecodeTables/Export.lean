import DecodeTables.Width

/-!
# What constructors and tables export

The semantic part of a constructor may hand a value to the constructors that use its table. An
`Export` says what kind of value, and how wide it is. The constructors of one table agree on the
width, or all export nothing; `Export.unify` finds the export that covers two of them.
-/

namespace DecodeTables

namespace Export

/-- The kind of an exported value. `multiple` covers values of several kinds. -/
inductive Kind where
  | const
  | value
  | reference
  | multiple
deriving DecidableEq, Repr

/-- The word for a kind. -/
def Kind.text : Kind → String
  | const => "const"
  | value => "value"
  | reference => "reference"
  | multiple => "multiple"

/-- The kind that covers two kinds. -/
def Kind.join (first second : Kind) : Kind :=
  if first = second then first else multiple

end Export

/-- What is exported: nothing, or a value of some kind and width. -/
inductive Export where
  | none
  | sized (kind : Export.Kind) (width : Width)
deriving DecidableEq, Repr

namespace Export

/-- The width of the exported value, if there is one. -/
def width? : Export → Option Width
  | none => .none
  | sized _ width => some width

/-- Says whether nothing is exported. -/
def isNone : Export → Bool
  | none => true
  | sized .. => false

/-- The text of an export: its kind, and its width after a colon. -/
def text : Export → String
  | none => "none"
  | sized kind width => s!"{kind.text}:{width.text}"

/-- The exports that were found not to fit together: the one expected and the one found. -/
structure Mismatch where
  expected : Export
  found : Export
deriving DecidableEq, Repr

/-- The export that covers both `current` and `incoming`. There is none if their widths differ, or
if just one of them exports a value. -/
def unify (current incoming : Export) : Except Mismatch Export :=
  match current, incoming with
  | none, none => .ok none
  | sized kind width, sized kind' width' =>
    if width = width' then .ok (sized (kind.join kind') width)
    else .error ⟨current, incoming⟩
  | _, _ => .error ⟨current, incoming⟩

/-- Takes `incoming` into an export that is `established` once a first one has been taken in. That
first one is adopted as it is. -/
def extend (established : Bool) (current incoming : Export) : Except Mismatch Export :=
  if established then unify current incoming else .ok incoming

end Export

end DecodeTables
