import StepGraph.Number.Power

namespace StepGraph

-- The integer types of the language.
inductive IntKind where
  | int | int8 | int16 | int32 | int64
  | uint | uint8 | uint16 | uint32 | uint64 | uintptr
  deriving DecidableEq, Inhabited

namespace IntKind

def all : List IntKind :=
  [int, int8, int16, int32, int64, uint, uint8, uint16, uint32, uint64, uintptr]

def name : IntKind → String
  | int => "int"
  | int8 => "int8"
  | int16 => "int16"
  | int32 => "int32"
  | int64 => "int64"
  | uint => "uint"
  | uint8 => "uint8"
  | uint16 => "uint16"
  | uint32 => "uint32"
  | uint64 => "uint64"
  | uintptr => "uintptr"

def ofName? (s : String) : Option IntKind := all.find? (·.name == s)

-- Width in bits.
def bits : IntKind → Nat
  | int8 | uint8 => 8
  | int16 | uint16 => 16
  | int32 | uint32 => 32
  | int | int64 | uint | uint64 | uintptr => 64

def isSigned : IntKind → Bool
  | int | int8 | int16 | int32 | int64 => true
  | uint | uint8 | uint16 | uint32 | uint64 | uintptr => false

-- The number of values of the kind.
def modulus (k : IntKind) : Nat := pow2 k.bits

end IntKind

end StepGraph
