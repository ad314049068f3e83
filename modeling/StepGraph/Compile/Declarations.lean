import StepGraph.Compile.Lower

namespace StepGraph

namespace ConstSpec

-- The lines of a constant block, a line without values with those of the line before it
-- and that line's type.
def filled (previous : Option ConstSpec) : List ConstSpec → List ConstSpec
  | [] => []
  | s :: rest =>
      let line : ConstSpec :=
        match previous with
        | some p => if s.values.isEmpty then ⟨s.names, p.ty, p.values⟩ else s
        | none => s
      line :: filled (some line) rest

end ConstSpec

namespace Build

def unitName : String := "init"

-- The steps of one package variable declaration. They run right in the scope of the package.
def buildVar (spec : VarSpec) : Build CodeRef := do
  if spec.values.isEmpty then
    match spec.ty with
    | some ty => emit' (.declareZero spec.names ty) Span.none
    | none => unsupported "variable without type or value" Span.none
  else
    let want := spec.names.length
    let arity ← compileValues spec.values want (List.replicate want spec.ty)
    emit' (.declare spec.names spec.ty arity) Span.none
  finish unitName none false

-- The steps of line `iota` of a constant block.
def buildConst (line : ConstSpec) (iota : Nat) : Build CodeRef := do
  if line.values.isEmpty then unsupported "constant without a value" Span.none
  modify fun b => { b with iota := some iota }
  let want := line.names.length
  let arity ← compileValues line.values want (List.replicate want line.ty)
  emit' (.declare line.names line.ty arity) Span.none
  finish unitName none false

def buildFunc (d : FuncDecl) : Build CodeRef := do
  match d.recv with
  | some ⟨some x, typeName, pointer⟩ =>
      let ty : Ty := .named typeName
      declare x (some (if pointer then .pointer ty else ty))
  | _ => pure ()
  compileStmts d.body
  finish d.name d.recv false

end Build

namespace PackageNames

def addGlobals (p : PackageNames) (names : List String) (ty : Option Ty) (values : List Expr) :
    PackageNames :=
  let types :=
    if ty.isSome then List.replicate names.length ty
    else if values.length = names.length then values.map initializerType
    else List.replicate names.length none
  (names.zip types).foldl (fun p (x, ty) => p.addGlobal x ty) p

-- Functions that run when a package is initialized cannot be called, so they have no name.
def addDecl (p : PackageNames) : Decl → PackageNames
  | .func d =>
      match d.recv with
      | some recv => p.addMethod recv d.name d.sig
      | none => if d.name = Build.unitName then p else p.addFunc d.name d.sig
  | .var spec => p.addGlobals spec.names spec.ty spec.values
  | .const specs =>
      (ConstSpec.filled none specs).foldl (fun p s => p.addGlobals s.names s.ty s.values) p
  | .type _ _ => p

-- The names of a package. `imports` are those that its imports are bound to.
def ofPackage (pkg : Package) (imports : List String) : PackageNames :=
  pkg.decls.foldl addDecl (imports.foldl addImport empty)

end PackageNames

-- The compiled declarations of a package in the order of the source.
structure CompiledPackage where
  funcs : List (String × CodeRef)
  methods : List (Receiver × String × CodeRef)
  inits : List CodeRef
  units : List CodeRef

-- The declared types and the code of all packages so far.
structure Library where
  types : TypeTable
  code : Array Function

abbrev Compile := EStateM CompileError Library

namespace Compile

-- Builds one function. Types that its body declares stay declared.
def function (names : PackageNames) (sig : Signature) (build : Build CodeRef) :
    Compile CodeRef := fun lib =>
  match build (.start ⟨names, lib.types, []⟩ lib.code sig) with
  | .ok ref b => .ok ref ⟨b.names.types, b.code⟩
  | .error e b => .error e ⟨b.names.types, b.code⟩

def declareTypes : List Decl → Compile Unit
  | [] => pure ()
  | .type name ty :: rest => do
      match (← get).types.declare? name ty with
      | some types => modify fun lib => { lib with types }
      | none => throw (.duplicateType name)
      declareTypes rest
  | _ :: rest => declareTypes rest

def unitsOf (names : PackageNames) : Decl → Compile (List CodeRef)
  | .var spec => return [← function names .empty (Build.buildVar spec)]
  | .const specs =>
      (ConstSpec.filled none specs).zipIdx.mapM fun (line, iota) =>
        function names .empty (Build.buildConst line iota)
  | .type .. | .func _ => pure []

-- Functions come before variables, so an error in a function is the one that is told.
def package (pkg : Package) (names : PackageNames) : Compile CompiledPackage := do
  let built ← pkg.funcs.mapM fun d => do
    return (d, ← function names d.sig (Build.buildFunc d))
  let units ← pkg.decls.mapM (unitsOf names)
  let plain := built.filter fun (d, _) => d.recv.isNone
  return {
    funcs := (plain.filter fun (d, _) => d.name ≠ Build.unitName).map fun (d, c) => (d.name, c)
    methods := built.filterMap fun (d, c) => d.recv.map fun recv => (recv, d.name, c)
    inits := (plain.filter fun (d, _) => d.name = Build.unitName).map (·.2)
    units := units.flatten }

end Compile

end StepGraph
