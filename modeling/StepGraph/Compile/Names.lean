import StepGraph.Graph.Builtin
import StepGraph.Graph.Shape
import StepGraph.Tree.Package
import StepGraph.Types.Table

namespace StepGraph

-- The types of a function's parameters and results.
structure FuncTy where
  params : List Ty
  results : List Ty
  variadic : Bool

namespace FuncTy

def ofSignature (sig : Signature) : FuncTy :=
  ⟨sig.params.map (·.ty), sig.results.map (·.ty), sig.variadic⟩

def ofTy? : Ty → Option FuncTy
  | .func ps rs v => some ⟨ps, rs, v⟩
  | _ => none

def toTy (f : FuncTy) : Ty := .func f.params f.results f.variadic

end FuncTy

-- A method is known by its type and its name.
abbrev MethodName := String × String

-- What the declarations of a package say about its names before anything runs. Of entries
-- with the same name the first one counts.
structure PackageNames where
  globals : List (String × Option Ty)
  imports : List String
  funcs : List (String × FuncTy)
  methods : List (MethodName × FuncTy)
  pointerMethods : List MethodName

namespace PackageNames

def empty : PackageNames := ⟨[], [], [], [], []⟩

def addGlobal (p : PackageNames) (name : String) (ty : Option Ty) : PackageNames :=
  { p with globals := (name, ty) :: p.globals }

def addImport (p : PackageNames) (name : String) : PackageNames :=
  { p with imports := name :: p.imports }

def addFunc (p : PackageNames) (name : String) (sig : Signature) : PackageNames :=
  { p with funcs := (name, .ofSignature sig) :: p.funcs }

def addMethod (p : PackageNames) (recv : Receiver) (name : String) (sig : Signature) :
    PackageNames :=
  let key := (recv.typeName, name)
  { p with
    methods := (key, .ofSignature sig) :: p.methods
    pointerMethods := if recv.pointer then key :: p.pointerMethods else p.pointerMethods }

def isGlobal (p : PackageNames) (name : String) : Bool := (p.globals.lookup name).isSome

def isImport (p : PackageNames) (name : String) : Bool := p.imports.contains name

def declares (p : PackageNames) (name : String) : Bool :=
  p.isGlobal name || (p.funcs.lookup name).isSome || p.isImport name

-- Whether some type has a method of this name with a pointer receiver.
def hasPointerMethod (p : PackageNames) (name : String) : Bool :=
  p.pointerMethods.any (·.2 == name)

end PackageNames

-- The names of one block with their static types, where those are known.
abbrev BlockNames := List (String × Option Ty)

-- Everything that decides what a name means at a place of a function. The innermost block
-- comes first, and the blocks around a function literal are among them.
structure Names where
  package : PackageNames
  types : TypeTable
  blocks : List BlockNames

-- What a call turns out to be.
inductive CallShape where
  | builtin (b : Builtin)
  | conversion (ty : Ty)
  | call

namespace Names

def blank : String := "_"

-- What is known of a local variable. Outside there is none of that name.
def local? (n : Names) (name : String) : Option (Option Ty) :=
  n.blocks.findSome? fun b => b.lookup name

def declare (n : Names) (name : String) (ty : Option Ty) : Names :=
  if name = blank then n
  else match n.blocks with
    | b :: rest => { n with blocks := ((name, ty) :: b) :: rest }
    | [] => n

def variableType (n : Names) (name : String) : Option Ty :=
  match n.local? name with
  | some ty => ty
  | none => (n.package.globals.lookup name).join

-- Whether a declaration takes a predeclared name.
def isShadowed (n : Names) (name : String) : Bool :=
  (n.local? name).isSome || n.package.declares name

def basicTypes : List (String × Ty) :=
  IntKind.all.map (fun k => (k.name, .int k)) ++
    [("byte", .int .uint8), ("rune", .int .int32), ("bool", .bool), ("float32", .float32),
      ("float64", .float64), ("complex64", .complex64), ("complex128", .complex128),
      ("string", .string)]

-- The type that a name stands for.
def typeNamed? (n : Names) (name : String) : Option Ty :=
  (basicTypes.lookup name).or (if n.types.contains name then some (.named name) else none)

def callShape (n : Names) (callee : Expr) : CallShape :=
  match callee with
  | .typeExpr _ ty => .conversion ty
  | .ident _ name =>
      if n.isShadowed name then .call
      else match Builtin.ofName? name with
        | some b => .builtin b
        | none =>
            match n.typeNamed? name with
            | some ty => .conversion ty
            | none => .call
  | _ => .call

-- The type that stands in the place of an argument.
def typeArgument? (n : Names) (arg : Expr) : Option Ty :=
  match arg with
  | .typeExpr _ ty => some ty
  | .ident _ name => n.typeNamed? name
  | _ => none

def resolve (n : Names) (ty : Ty) : Ty := n.types.resolve ty

def elem? (n : Names) (ty : Ty) : Option Ty := (n.resolve ty).elem?

-- Whether an expression names an imported package.
def isImport (n : Names) (e : Expr) : Bool :=
  match e.ident? with
  | some name => (n.local? name).isNone && n.package.isImport name
  | none => false

end Names

end StepGraph
