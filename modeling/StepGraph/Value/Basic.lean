import StepGraph.Number.Fixed
import StepGraph.Number.Complex
import StepGraph.Tree.Ty

namespace StepGraph

-- The fields of a struct in the order of their declaration.
structure Layout where
  fields : List Field

namespace Layout

def length (l : Layout) : Nat := l.fields.length

def names (l : Layout) : List String := l.fields.map (·.name)

-- The place of a field. Of fields with the same name the last one counts.
def index? (l : Layout) (name : String) : Option Nat :=
  (l.names.zipIdx.filter (·.1 == name)).getLast?.map (·.2)

def fieldType? (l : Layout) (i : Nat) : Option Ty := l.fields[i]?.map (·.ty)

-- The places of the embedded fields.
def embedded (l : Layout) : List Nat :=
  (l.fields.zipIdx.filter (·.1.embedded)).map (·.2)

end Layout

-- Numbers that the heap gives out.
abbrev BlockId := Nat
abbrev Address := Nat
abbrev MapId := Nat
abbrev ChanId := Nat
abbrev ScopeId := Nat
abbrev CursorId := Nat

-- The part of a block of elements that a slice shows. The elements between `length` and
-- `capacity` exist and come to light when the slice grows.
structure Window where
  block : BlockId
  offset : Nat
  length : Nat
  capacity : Nat
  deriving DecidableEq

-- A struct is a block of fields. Two struct values may share one block.
structure StructRef where
  layout : Layout
  block : BlockId
  typeName : Option String

-- An error value has an identity: two errors with the same message differ.
structure ErrorRef where
  id : Nat
  message : String
  runtime : Bool
  deriving DecidableEq

-- A function of the program under its number in the code.
structure CodeRef where
  id : Nat
  name : String
  deriving DecidableEq

-- A member of a package of the embedder.
structure HostRef where
  path : String
  package : String
  member : String
  deriving DecidableEq

def HostRef.name (h : HostRef) : String := h.package ++ "." ++ h.member

inductive Callee where
  | closure (code : CodeRef) (env : ScopeId)
  | host (func : HostRef)
  | errorText (message : String)
  deriving DecidableEq

-- An imported package: one of the embedder, or the scope that a package of source text left.
structure PackageRef where
  path : String
  name : String
  scope : Option ScopeId
  deriving DecidableEq

inductive Value where
  | nil
  | bool (b : Bool)
  | int (n : IntValue)
  | float32 (x : Float32)
  | float64 (x : Float)
  | complex64 (z : Complex)
  | complex128 (z : Complex)
  | str (s : String)
  | slice (window : Option Window)
  | array (block : BlockId)
  | map (id : Option MapId)
  | pointer (address : Option Address)
  | struct (ref : StructRef)
  | named (typeName : String) (inner : Value)
  | func (callee : Option Callee)
  | method (code : CodeRef) (env : ScopeId) (receiver : Value)
  | chan (id : Option ChanId)
  | package (ref : PackageRef)
  | error (ref : ErrorRef)
  | cursor (id : CursorId)

instance : Inhabited Value := ⟨.nil⟩

namespace Value

def plainInt (n : Int) : Value := .int (.plain n)

def intOf (k : IntKind) (n : Int) : Value := .int (.ofInt k n)

def byte (b : UInt8) : Value := intOf .uint8 b.toNat

def rune (c : Char) : Value := intOf .int32 c.toNat

-- The value without the declared types around it.
def unwrap : Value → Value
  | named _ v => v.unwrap
  | v => v

def bool? (v : Value) : Option Bool :=
  match v.unwrap with
  | bool b => some b
  | _ => none

def int? (v : Value) : Option IntValue :=
  match v.unwrap with
  | int n => some n
  | _ => none

def str? (v : Value) : Option String :=
  match v.unwrap with
  | str s => some s
  | _ => none

def isNamed : Value → Bool
  | named .. => true
  | _ => false

def isBareNil : Value → Bool
  | nil => true
  | _ => false

-- Nil of any type.
def isNil : Value → Bool
  | nil | pointer none | func none | chan none | slice none | map none => true
  | _ => false

-- The word for the kind of a value in messages.
def kindName : Value → String
  | nil => "nil"
  | bool _ => "bool"
  | int n => n.kind.name
  | float32 _ => "float32"
  | float64 _ => "float64"
  | complex64 _ => "complex64"
  | complex128 _ => "complex128"
  | str _ => "string"
  | slice _ => "slice"
  | array _ => "array"
  | map _ => "map"
  | pointer _ => "pointer"
  | struct _ => "struct"
  | named _ v => v.kindName
  | func _ | method .. => "func"
  | chan _ => "chan"
  | package _ => "package"
  | error _ => "error"
  | cursor _ => "cursor"

-- The name of the declared type that a value carries.
def declaredName? : Value → Option String
  | struct s => s.typeName
  | named n _ => some n
  | _ => none

end Value

-- A value that refers to nothing in a heap: what a step may push, and what a variable
-- holds before it is assigned.
inductive Constant where
  | nil
  | bool (b : Bool)
  | int (n : IntValue)
  | float32 (x : Float32)
  | float64 (x : Float)
  | complex64 (z : Complex)
  | complex128 (z : Complex)
  | str (s : String)
  | nilSlice
  | nilMap
  | nilPointer
  | nilFunc
  | nilChan
  | array (elems : List Constant)
  | struct (layout : Layout) (typeName : Option String) (fields : List Constant)
  | named (typeName : String) (inner : Constant)

instance : Inhabited Constant := ⟨.nil⟩

namespace Constant

def plainInt (n : Int) : Constant := .int (.plain n)

end Constant

end StepGraph
