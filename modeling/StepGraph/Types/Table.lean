import StepGraph.Value.Basic

namespace StepGraph

-- A method of a declared type: its code, the scope that the code closes over, and whether
-- its receiver is a pointer.
structure Method where
  code : CodeRef
  env : ScopeId
  pointer : Bool

-- A declared type. It has a layout as soon as it is known to be a struct.
structure TypeInfo where
  underlying : Ty
  methods : List (String × Method)
  layout : Option Layout

-- The declared types by name, in the order of their declaration.
structure TypeTable where
  types : List (String × TypeInfo)

namespace TypeTable

def errorName : String := "error"

def errorMethod : String := "Error"

-- The table with the one type that is declared from the start.
def initial : TypeTable := ⟨[(errorName, ⟨.interface [errorMethod], [], none⟩)]⟩

def info? (t : TypeTable) (name : String) : Option TypeInfo := t.types.lookup name

def contains (t : TypeTable) (name : String) : Bool := (t.info? name).isSome

def resolveUpTo (t : TypeTable) : Nat → Ty → Ty
  | n + 1, .named x =>
      match t.info? x with
      | some i => resolveUpTo t n i.underlying
      | none => .named x
  | _, ty => ty

-- The type behind the names of declared types. A chain of more than 64 names, which may be
-- endless, is given up.
def resolve (t : TypeTable) (ty : Ty) : Ty := t.resolveUpTo 64 ty

-- What a type would have as its layout if it is a struct.
def layoutOf : Ty → Option Layout
  | .struct fields => some ⟨fields⟩
  | _ => none

-- A type with a layout, if it is a struct by now. A layout that is there stays.
def laidOut (t : TypeTable) (i : TypeInfo) : TypeInfo :=
  { i with layout := i.layout.or (layoutOf (t.resolve i.underlying)) }

def refreshLayouts (t : TypeTable) : TypeTable := ⟨t.types.map fun (n, i) => (n, t.laidOut i)⟩

-- The table with one more type, unless the name is taken.
def declare? (t : TypeTable) (name : String) (underlying : Ty) : Option TypeTable :=
  if t.contains name then none
  else some (refreshLayouts ⟨t.types ++ [(name, ⟨underlying, [], none⟩)]⟩)

-- Declares types in turn and tells which of the names were free.
def declareAll (t : TypeTable) : List (String × Ty) → List Bool × TypeTable
  | [] => ([], t)
  | (name, ty) :: rest =>
      match t.declare? name ty with
      | some t' => let (free, u) := t'.declareAll rest; (true :: free, u)
      | none => let (free, u) := t.declareAll rest; (false :: free, u)

def method? (t : TypeTable) (typeName name : String) : Option Method :=
  (t.info? typeName).bind fun i => i.methods.lookup name

-- The table with a method of a declared type. A later method of the same name wins.
def addMethod? (t : TypeTable) (typeName name : String) (m : Method) : Option TypeTable :=
  if t.contains typeName then
    some ⟨t.types.map fun (n, i) =>
      if n = typeName then (n, { i with methods := (name, m) :: i.methods }) else (n, i)⟩
  else none

def isInterface (t : TypeTable) (ty : Ty) : Bool := (t.resolve ty).isInterface

-- The layout of a declared type, if that is a struct.
def layout? (t : TypeTable) (name : String) : Option Layout := (t.info? name).bind (·.layout)

-- The fields of a struct type, and its name if it is declared.
def structOf? (t : TypeTable) : Ty → Option (Layout × Option String)
  | .named n => (t.layout? n).map (·, some n)
  | .struct fields => some (⟨fields⟩, none)
  | _ => none

def intKind? (t : TypeTable) (ty : Ty) : Option IntKind :=
  match t.resolve ty with
  | .int k => some k
  | _ => none

end TypeTable

end StepGraph
