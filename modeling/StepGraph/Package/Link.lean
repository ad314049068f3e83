import StepGraph.Compile.Declarations
import StepGraph.Machine.Run
import StepGraph.Package.Source

namespace StepGraph

-- Why a package cannot be made ready to run.
inductive BuildError where
  | load (error : LoadError)
  | frontEnd (error : FrontEndError)
  | compile (error : CompileError)
  | unknownImport (path : String)
  | importCycle (path : String)
  | undefined (names : List String)
  | init (error : EvalError)
  | exhausted

namespace BuildError

def message : BuildError → String
  | load e => e.message
  | frontEnd e => "front-end: " ++ e.message
  | compile e => "compile: " ++ e.message
  | unknownImport path => "cannot find package " ++ Text.dumpString path
  | importCycle path => "import cycle through " ++ Text.dumpString path
  | undefined names => "undefined: " ++ ", ".intercalate names
  | init e => "package initialization failed: " ++ e.text
  | exhausted => "the bound on the length of a run was reached"

-- The kind of the error in one word, and behind a point what is known more exactly.
def label : BuildError → String
  | load e => e.label
  | frontEnd _ => "FrontEnd"
  | compile e => "Compile." ++ e.label
  | unknownImport _ => "UnknownImport"
  | importCycle _ => "ImportCycle"
  | undefined _ => "Undefined"
  | init _ => "Init"
  | exhausted => "Exhausted"

end BuildError

-- What a package is built with. Source packages are imported from the directories
-- below `importRoot`. `fuel` bounds how long a run may take.
structure BuildOptions where
  hosts : HostRegistry
  maxDepth : Nat
  files : FileTree
  importRoot : Option String
  extension : String
  fuel : Nat

-- The packages that are linked so far, and the machine that they share.
structure Linker where
  machine : Machine
  library : Library
  loaded : List (String × PackageRef)

abbrev Link := EStateM BuildError Linker

namespace Link

def start (printer : Printer) : Linker := ⟨.start printer, ⟨.initial, #[]⟩, []⟩

def onHeap {α : Type} (x : HeapM α) : Link α := fun l =>
  let (a, heap) := x l.machine.heap
  .ok a { l with machine := { l.machine with heap } }

-- Runs something in the machine, whose state stays as it is left in either case.
def exec {α : Type} (x : Exec α) : Link (Except Unwind α) := fun l =>
  match x l.machine with
  | .ok a machine => .ok (.ok a) { l with machine }
  | .error u machine => .ok (.error u) { l with machine }

def compile {α : Type} (x : Compile α) : Link α := fun l =>
  match x l.library with
  | .ok a library => .ok a { l with library }
  | .error e library => .error (.compile e) { l with library }

def program (o : BuildOptions) (initializing : Bool) : Link Program := do
  let lib := (← get).library
  return ⟨lib.code, lib.types, o.hosts, o.maxDepth, initializing⟩

-- The error that ends a build because of an unwinding.
def failInit {α : Type} (o : BuildOptions) (p : Program) (u : Unwind) : Link α := do
  match ← exec (p.evalError o.fuel u) with
  | .ok e => throw (.init e)
  | .error _ => throw .exhausted

-- Runs each unit once. The results are those that use a variable that is not there yet,
-- and the names of such variables.
def runPass (o : BuildOptions) (p : Program) (scope : ScopeId) :
    List CodeRef → Link (List CodeRef × List String)
  | [] => pure ([], [])
  | unit :: rest => do
      match p.code[unit.id]? with
      | none => runPass o p scope rest
      | some f =>
          match ← exec (p.runUnit o.fuel f scope) with
          | .ok _ => runPass o p scope rest
          | .error (.undeclared name) =>
              let (blocked, missing) ← runPass o p scope rest
              return (unit :: blocked, name :: missing.filter (· ≠ name))
          | .error u => failInit o p u

-- Runs units in passes until each of them has come to its end. A pass that gets no unit
-- further ends the build.
def runUnits (o : BuildOptions) (p : Program) (scope : ScopeId) : Nat → List CodeRef → Link Unit
  | _, [] => pure ()
  | 0, _ => throw .exhausted
  | n + 1, units => do
      let (blocked, missing) ← runPass o p scope units
      if blocked.length = units.length then throw (.undefined missing)
      else runUnits o p scope n blocked

def closure (code : CodeRef) (scope : ScopeId) : Value := .func (some (.closure code scope))

def runInits (o : BuildOptions) (p : Program) (scope : ScopeId) : List CodeRef → Link Unit
  | [] => pure ()
  | init :: rest => do
      match ← exec (p.callFunction o.fuel (closure init scope) []) with
      | .ok (.ok _) => runInits o p scope rest
      | .ok (.error e) => throw (.init e)
      | .error _ => throw .exhausted

def addMethods (scope : ScopeId) : List (Receiver × String × CodeRef) → Link Unit
  | [] => pure ()
  | (recv, name, code) :: rest => do
      match (← get).library.types.addMethod? recv.typeName name ⟨code, scope, recv.pointer⟩ with
      | some types => modify fun l => { l with library := { l.library with types } }
      | none =>
          throw (.compile (.unsupported ("method on undeclared type " ++ recv.typeName) Span.none))
      addMethods scope rest

-- The source package in a directory below the import root.
def loadSource (o : BuildOptions) (frontEnd : Option FrontEnd) (path : String) : Link Package := do
  match o.importRoot, frontEnd with
  | some root, some parse =>
      let dir := joinPath root path
      if !o.files.isDir dir then throw (.unknownImport path)
      else match SourceFile.load o.files dir o.extension with
        | .error e => throw (.load e)
        | .ok files =>
            match parse files with
            | .ok pkg => return pkg
            | .error e => throw (.frontEnd e)
  | _, _ => throw (.unknownImport path)

-- The package behind an import path. `linking` are the source packages whose imports are being
-- resolved, and `link` links one of those.
def resolveImport (o : BuildOptions) (frontEnd : Option FrontEnd) (linking : List String)
    (link : String → Package → Link ScopeId) (path : String) : Link PackageRef := do
  match (← get).loaded.lookup path with
  | some ref => return ref
  | none =>
      if linking.contains path then throw (.importCycle path)
      let ref ← match o.hosts.lookup path with
        | some host => pure ⟨path, host.name, none⟩
        | none => do
            let pkg ← loadSource o frontEnd path
            let scope ← link path pkg
            pure ⟨path, pkg.name, some scope⟩
      modify fun l => { l with loaded := (path, ref) :: l.loaded }
      return ref

-- Binds the imports of a package. The results are their names.
def bindImports (scope : ScopeId) (resolve : String → Link PackageRef) :
    List Import → Link (List String)
  | [] => pure []
  | i :: rest => do
      let ref ← resolve i.path
      if i.boundName = Names.blank then bindImports scope resolve rest
      else
        onHeap (Heap.declare scope i.boundName (.package ref))
        return i.boundName :: (← bindImports scope resolve rest)

-- Links a package once its imports are bound: declares its types and functions, sets its
-- variables and runs its initializers.
def linkDecls (o : BuildOptions) (scope : ScopeId) (pkg : Package) (imports : List String) :
    Link Unit := do
  compile (Compile.declareTypes pkg.decls)
  let compiled ← compile (Compile.package pkg (.ofPackage pkg imports))
  onHeap (compiled.funcs.forM fun (name, code) => Heap.declare scope name (closure code scope))
  addMethods scope compiled.methods
  runUnits o (← program o true) scope (compiled.units.length + 1) compiled.units
  runInits o (← program o false) scope compiled.inits

-- Links a package and all that it imports. The result is the scope of the package.
def link (o : BuildOptions) (frontEnd : Option FrontEnd) :
    Nat → List String → Package → Link ScopeId
  | 0, _, _ => throw .exhausted
  | n + 1, linking, pkg => do
      let scope ← onHeap (Heap.newScope none)
      let imports ← bindImports scope
        (resolveImport o frontEnd linking fun path => link o frontEnd n (path :: linking))
        pkg.imports
      linkDecls o scope pkg imports
      return scope

end Link

end StepGraph
