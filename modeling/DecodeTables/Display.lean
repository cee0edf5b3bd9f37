import DecodeTables.Blank
import DecodeTables.FirstUse

/-!
# How instructions are shown

The display of a constructor is written as pieces: literal texts, operands, and separators. The
literals before the first other piece make up the mnemonic, and the separator after it is
understood. What is left is the body. `Display.elaborate` takes a display apart in this way and
joins neighbouring literals of the body; `Display.render` shows it with texts for its operands.
-/

namespace DecodeTables

namespace Display

/-- A piece of a display as written. -/
inductive Piece where
  | literal (text : String)
  | operand (name : String)
  | separator
deriving DecidableEq, Repr

/-- The text of a literal. -/
def Piece.literal? : Piece → Option String
  | literal text => some text
  | _ => none

/-- A display as written. -/
abbrev Written := List Piece

/-- An element of the body of an elaborated display. -/
inductive Element where
  | literal (text : String)
  | operand (name : String)
deriving DecidableEq, Repr

/-- The name of an operand. -/
def Element.operand? : Element → Option String
  | operand name => some name
  | literal _ => none

end Display

/-- An elaborated display. -/
structure Display where
  mnemonic : String := ""
  body : List Display.Element := []
deriving DecidableEq, Repr

namespace Display

/-- Puts a literal in front of a body. An empty text adds nothing, and a literal at the beginning of
the body is joined to the new one. -/
def prepend (text : String) (body : List Element) : List Element :=
  if text = "" then body
  else match body with
    | .literal next :: rest => .literal (text ++ next) :: rest
    | _ => .literal text :: body

/-- The body made of the given pieces. A separator is shown as one space. -/
def bodyOf : List Piece → List Element
  | [] => []
  | .literal text :: rest => prepend text (bodyOf rest)
  | .operand name :: rest => .operand name :: bodyOf rest
  | .separator :: rest => prepend " " (bodyOf rest)

/-- The text of the literals with which the pieces begin. -/
def head (pieces : List Piece) : String :=
  String.join ((pieces.takeWhile (·.literal?.isSome)).filterMap Piece.literal?)

/-- The pieces after the literals with which they begin and the separator that ends these. -/
def afterHead (pieces : List Piece) : List Piece :=
  match pieces.dropWhile (·.literal?.isSome) with
  | .separator :: rest => rest
  | rest => rest

/-- Elaborates a display. -/
def elaborate (written : Written) : Display where
  mnemonic := trimBlanks (head written)
  body := bodyOf (afterHead written)

/-- The operands of a display, in order of first use. -/
def operands (display : Display) : List String :=
  firstUses (display.body.filterMap Element.operand?)

/-- The text shown for an element. An operand for which `texts` has no text is shown by its name. -/
def Element.render (texts : String → Option String) : Element → String
  | literal text => text
  | operand name => (texts name).getD name

/-- The text of a display: the mnemonic, and the body after a space. The space is left out if
either of the two is empty. -/
def render (display : Display) (texts : String → Option String) : String :=
  let gap := if display.mnemonic = "" ∨ display.body = [] then "" else " "
  display.mnemonic ++ gap ++ String.join (display.body.map (Element.render texts))

/-- What can be wrong with a display. -/
inductive Fault.Kind where
  /-- The display shows an operand that is not known. -/
  | unknownOperand
  /-- The display has no mnemonic. -/
  | missingMnemonic
deriving DecidableEq, Repr

/-- A fault of a display. Its `subject` is the name of the operand at fault. -/
structure Fault where
  kind : Fault.Kind
  subject : String
deriving DecidableEq, Repr

/-- The wording of a fault. -/
def Fault.message (fault : Fault) : String :=
  match fault.kind with
  | .unknownOperand => s!"display references unknown operand '{fault.subject}'"
  | .missingMnemonic => "display has no mnemonic"

end Display

end DecodeTables
