/-!
# Expressions of disassembly actions

An `Expr` computes a number while an instruction is shown. `Expr.program` turns it into a postfix
program, which a machine with a stack of values runs without recursion: a number or an identifier
pushes a value, and an operator takes two values and pushes one.
-/

namespace DecodeTables.Disassembly

/-- The operators of expressions. -/
inductive Operator where
  | add
  | sub
  | mul
  | div
  | and
  | or
  | xor
  | shl
  | shr
deriving DecidableEq, Repr

/-- The sign of an operator. -/
def Operator.text : Operator → String
  | add => "+"
  | sub => "-"
  | mul => "*"
  | div => "/"
  | and => "&"
  | or => "|"
  | xor => "^"
  | shl => "<<"
  | shr => ">>"

/-- An expression. An operand that was not given is `missing`, and so is an expression that was not
given at all. -/
inductive Expr where
  | missing
  | number (value : Int64)
  | ident (name : String)
  | binary (operator : Operator) (left right : Expr)
deriving DecidableEq, Repr

/-- A step of a postfix program. -/
inductive Item where
  | number (value : Int64)
  | ident (name : String)
  | operator (operator : Operator)
deriving DecidableEq, Repr

namespace Expr

/-- Says whether an expression was given. -/
def isGiven : Expr → Bool
  | missing => false
  | _ => true

/-- The postfix program of an expression. An operator is left out unless both of its operands were
given; the program of the one that was given is kept. -/
def program : Expr → List Item
  | missing => []
  | number value => [.number value]
  | ident name => [.ident name]
  | binary operator left right =>
    left.program ++ right.program ++
      if left.isGiven && right.isGiven then [.operator operator] else []

end Expr

end DecodeTables.Disassembly
