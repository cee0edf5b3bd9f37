import DecodeTables.FirstUse
import DecodeTables.Pattern.Written
import DecodeTables.Pattern.Fault

/-!
# Elaborated patterns

An elaborated block sorts the terms of a block as written by what they ask for and keeps each term
once, in order of first use. `Pattern.elaborate` reads blocks and elements in order and stops at
the first fault. The terms that were kept so far decide whether the next term is at fault, so
nothing after a fault matters.
-/

namespace DecodeTables

/-- A block whose terms are sorted by what they ask for, each of them once. -/
structure Pattern.Block where
  connective : Pattern.Connective
  constraints : List Pattern.Constraint := []
  fields : List String := []
  subTables : List String := []
deriving DecidableEq, Repr

/-- An elaborated pattern: its blocks, and the tables that any of them continues with. -/
structure Pattern where
  blocks : List Pattern.Block := []
  subTables : List String := []
deriving DecidableEq, Repr

namespace Pattern

namespace Block

/-- Says whether a kept constraint requires the field of `constraint` to equal another value. -/
def contradicts (block : Block) (constraint : Constraint) : Bool :=
  block.constraints.any fun kept =>
    kept.isEquality && kept.field == constraint.field && kept.value != constraint.value

/-- What is wrong with a term, given the terms that the block has kept before it. -/
def faultKind? (block : Block) (term : Term) : Option Fault.Kind :=
  if term.name = "" then some .emptyName
  else match term with
    | .field _ => none
    | .subTable _ => if block.connective = .any then some .tableInAny else none
    | .constraint constraint =>
      if block.connective = .all ∧ constraint.isEquality ∧ block.contradicts constraint then
        some .conflict
      else none

/-- Takes a term into a block. -/
def insert (block : Block) : Term → Block
  | .subTable name => { block with subTables := addNew block.subTables name }
  | .field name => { block with fields := addNew block.fields name }
  | .constraint constraint =>
    { block with constraints := addNew block.constraints constraint }

/-- Takes an element of the block at `outer` into what has been kept of that block. -/
def add (outer : Location) (block : Block) (element : Element) : Except Fault Block :=
  match block.faultKind? element.term with
  | some kind => .error ⟨kind, element.term.name, element.loc.orElse outer⟩
  | none => .ok (block.insert element.term)

/-- Elaborates a block of a pattern at `outer`. -/
def elaborate (outer : Location) (written : WrittenBlock) : Except Fault Block :=
  let loc := written.loc.orElse outer
  if written.elements = [] then .error ⟨.emptyBlock, "", loc⟩
  else written.elements.foldlM (add loc) { connective := written.connective }

end Block

/-- Takes a block in at the end of a pattern. -/
def append (pattern : Pattern) (block : Block) : Pattern where
  blocks := pattern.blocks ++ [block]
  subTables := block.subTables.foldl addNew pattern.subTables

/-- Elaborates a pattern at `loc`, which is the place of blocks that have no place of their own. -/
def elaborate (written : Written) (loc : Location) : Except Fault Pattern :=
  written.foldlM (fun pattern block => pattern.append <$> Block.elaborate loc block) {}

/-- Says whether a pattern has no blocks, so that it matches without looking at anything. -/
def isEpsilon (pattern : Pattern) : Bool :=
  pattern.blocks.isEmpty

/-- The number of constraints in all blocks. -/
def constraintCount (pattern : Pattern) : Nat :=
  (pattern.blocks.flatMap (·.constraints)).length

end Pattern

end DecodeTables
