import StepGraph.Tree.IntKind

namespace StepGraph

mutual

-- A static type. `named` stands for a declared type and is looked up in a type table.
inductive Ty where
  | bool
  | int (kind : IntKind)
  | float32
  | float64
  | complex64
  | complex128
  | string
  | slice (elem : Ty)
  | array (length : Nat) (elem : Ty)
  | map (key value : Ty)
  | pointer (elem : Ty)
  | chan (elem : Ty)
  | func (params results : List Ty) (variadic : Bool)
  | struct (fields : List Field)
  | interface (methods : List String)
  | named (name : String)
  | untypedNil

-- A field of a struct type. The fields and methods of an embedded field are promoted.
structure Field where
  name : String
  ty : Ty
  embedded : Bool

end

instance : Inhabited Ty := ⟨.untypedNil⟩

namespace Ty

-- The type of every untyped integer constant.
def plainInt : Ty := .int .int

-- The interface that asks for no method.
def any : Ty := .interface []

-- The types whose operators can be resolved before a program runs.
def isBasic : Ty → Bool
  | bool | int _ | float32 | float64 | complex64 | complex128 | string => true
  | _ => false

def isInterface : Ty → Bool
  | interface _ => true
  | _ => false

def isUntypedNil : Ty → Bool
  | untypedNil => true
  | _ => false

-- What an index, a dereference or a receive yields. For a map it is the value type.
def elem? : Ty → Option Ty
  | slice e | array _ e | pointer e | chan e => some e
  | map _ v => some v
  | _ => none

mutual

-- The type as it is written in a program.
def text : Ty → String
  | bool => "bool"
  | int k => k.name
  | float32 => "float32"
  | float64 => "float64"
  | complex64 => "complex64"
  | complex128 => "complex128"
  | string => "string"
  | slice e => "[]" ++ e.text
  | array n e => "[" ++ toString n ++ "]" ++ e.text
  | map k v => "map[" ++ k.text ++ "]" ++ v.text
  | pointer e => "*" ++ e.text
  | chan e => "chan " ++ e.text
  | func ps rs variadic =>
      let head := "func(" ++ ", ".intercalate (paramTexts variadic ps) ++ ")"
      match rs with
      | [] => head
      | [r] => head ++ " " ++ r.text
      | rs => head ++ " (" ++ ", ".intercalate (texts rs) ++ ")"
  | struct [] => "struct \x7b\x7d"
  | struct fs => "struct \x7b " ++ "; ".intercalate (fieldTexts fs) ++ " \x7d"
  | interface [] => "interface \x7b\x7d"
  | interface ms => "interface \x7b" ++ String.join (ms.map fun m => " " ++ m ++ "()") ++ " \x7d"
  | named n => n
  | untypedNil => "nil"

def texts : List Ty → List String
  | [] => []
  | t :: ts => t.text :: texts ts

-- Three dots stand before the last parameter of a variadic function.
def paramTexts (variadic : Bool) : List Ty → List String
  | [] => []
  | [t] => [(if variadic then "..." else "") ++ t.text]
  | t :: ts => t.text :: paramTexts variadic ts

def fieldTexts : List Field → List String
  | [] => []
  | ⟨n, t, _⟩ :: fs => (n ++ " " ++ t.text) :: fieldTexts fs

end

end Ty

end StepGraph
