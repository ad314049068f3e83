namespace StepGraph

inductive BinaryOp where
  | add | sub | mul | div | rem
  | bitAnd | bitOr | bitXor | andNot | shl | shr
  | eq | notEq | lt | ltEq | gt | gtEq
  | logicalAnd | logicalOr
  deriving DecidableEq, Inhabited

namespace BinaryOp

-- Arithmetic first, then bits, comparisons and the two short-circuit operators.
def all : List BinaryOp :=
  [add, sub, mul, div, rem, bitAnd, bitOr, bitXor, andNot, shl, shr,
    eq, notEq, lt, ltEq, gt, gtEq, logicalAnd, logicalOr]

def symbol : BinaryOp → String
  | add => "+"
  | sub => "-"
  | mul => "*"
  | div => "/"
  | rem => "%"
  | bitAnd => "&"
  | bitOr => "|"
  | bitXor => "^"
  | andNot => "&^"
  | shl => "<<"
  | shr => ">>"
  | eq => "=="
  | notEq => "!="
  | lt => "<"
  | ltEq => "<="
  | gt => ">"
  | gtEq => ">="
  | logicalAnd => "&&"
  | logicalOr => "||"

def ofSymbol? (s : String) : Option BinaryOp := all.find? (·.symbol == s)

def isComparison : BinaryOp → Bool
  | eq | notEq | lt | ltEq | gt | gtEq => true
  | _ => false

def isLogical : BinaryOp → Bool
  | logicalAnd | logicalOr => true
  | _ => false

def isShift : BinaryOp → Bool
  | shl | shr => true
  | _ => false

end BinaryOp

inductive UnaryOp where
  | neg | plus | not | bitNot | deref | addrOf | recv
  deriving DecidableEq, Inhabited

namespace UnaryOp

def all : List UnaryOp := [neg, plus, not, bitNot, deref, addrOf, recv]

def symbol : UnaryOp → String
  | neg => "-"
  | plus => "+"
  | not => "!"
  | bitNot => "^"
  | deref => "*"
  | addrOf => "&"
  | recv => "<-"

def ofSymbol? (s : String) : Option UnaryOp := all.find? (·.symbol == s)

end UnaryOp

end StepGraph
