namespace PCode

abbrev Cell := Int64

namespace Cell

def ofBool (value : Bool) : Cell :=
  if value then 1 else 0

def toAddress (cell : Cell) : Nat :=
  cell.toUInt64.toNat

def ofAddress (address : Nat) : Cell :=
  address.toUInt64.toInt64

def toReal (cell : Cell) : Float :=
  Float.ofBits cell.toUInt64

def ofReal (value : Float) : Cell :=
  value.toBits.toInt64

end Cell

/-- What an `opr` instruction computes: on integers, on truth values, and on reals. -/
inductive Operator where
  | neg
  | add
  | sub
  | mul
  | div
  | mod
  | eq
  | ne
  | lt
  | gt
  | not
  | and
  | or
  | realNeg
  | realAdd
  | realSub
  | realMul
  | realDiv
  | realEq
  | realNe
  | realLt
  | realGt
deriving DecidableEq, Repr

namespace Operator

def table : List Operator :=
  [.neg, .add, .sub, .mul, .div, .mod, .eq, .ne, .lt, .gt, .not, .and, .or, .realNeg, .realAdd,
    .realSub, .realMul, .realDiv, .realEq, .realNe, .realLt, .realGt]

def operand (operator : Operator) : Cell :=
  Int64.ofNat (table.idxOf operator)

def ofOperand? (operand : Cell) : Option Operator :=
  if operand < 0 then none else table[operand.toAddress]?

def isUnary : Operator → Bool
  | .neg | .not | .realNeg => true
  | _ => false

def arity (operator : Operator) : Nat :=
  if operator.isUnary then 1 else 2

/-- The result of an operator. A unary operator applies to the right cell. A real result that is no
number has one bit pattern, also behind `realNeg`, where flipping the sign bit would give
another. -/
def apply (operator : Operator) (left right : Cell) : Cell :=
  match operator with
  | .neg => -right
  | .add => left + right
  | .sub => left - right
  | .mul => left * right
  | .div => if right = 0 then 0 else left / right
  | .mod => if right = 0 then 0 else left % right
  | .eq => .ofBool (left == right)
  | .ne => .ofBool (left != right)
  | .lt => .ofBool (left < right)
  | .gt => .ofBool (right < left)
  | .not => .ofBool (right == 0)
  | .and => .ofBool (left != 0 && right != 0)
  | .or => .ofBool (left != 0 || right != 0)
  | .realNeg => .ofReal (-right.toReal)
  | .realAdd => .ofReal (left.toReal + right.toReal)
  | .realSub => .ofReal (left.toReal - right.toReal)
  | .realMul => .ofReal (left.toReal * right.toReal)
  | .realDiv => .ofReal (left.toReal / right.toReal)
  | .realEq => .ofBool (left.toReal == right.toReal)
  | .realNe => .ofBool (left.toReal != right.toReal)
  | .realLt => .ofBool (left.toReal < right.toReal)
  | .realGt => .ofBool (right.toReal < left.toReal)

end Operator

end PCode
