namespace StepGraph

-- The functions that are declared from the start.
inductive Builtin where
  | append | cap | clear | close | complex | copy | delete | imag | len | make | max | min
  | new | panic | print | println | real | recover
  deriving DecidableEq

namespace Builtin

def all : List Builtin :=
  [append, cap, clear, close, complex, copy, delete, imag, len, make, max, min, new, panic,
    print, println, real, recover]

def name : Builtin → String
  | append => "append"
  | cap => "cap"
  | clear => "clear"
  | close => "close"
  | complex => "complex"
  | copy => "copy"
  | delete => "delete"
  | imag => "imag"
  | len => "len"
  | make => "make"
  | max => "max"
  | min => "min"
  | new => "new"
  | panic => "panic"
  | print => "print"
  | println => "println"
  | real => "real"
  | recover => "recover"

def ofName? (s : String) : Option Builtin := all.find? (·.name == s)

-- Whether the first argument of a call is a type.
def takesType : Builtin → Bool
  | make | new => true
  | _ => false

-- Whether a call has a value.
def hasResult : Builtin → Bool
  | clear | close | delete | panic | print | println => false
  | _ => true

end Builtin

end StepGraph
