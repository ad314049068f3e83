import StepGraph.Host.Defaults
import StepGraph.Package.Link

namespace StepGraph

-- A package that is ready to run. The machine in which it was built goes with it.
structure Executable where
  name : String
  program : Program
  scope : ScopeId
  fuel : Nat

namespace BuildOptions

def defaultMaxDepth : Nat := 10000

-- More steps than a machine can take.
def defaultFuel : Nat := pow2 60

def default : BuildOptions :=
  ⟨.default, defaultMaxDepth, .empty, none, SourceFile.defaultExtension, defaultFuel⟩

end BuildOptions

namespace Executable

def finish (o : BuildOptions) (frontEnd : Option FrontEnd) (pkg : Package) : Link Executable := do
  let scope ← Link.link o frontEnd o.fuel [] pkg
  return ⟨pkg.name, ← Link.program o false, scope, o.fuel⟩

-- Builds a package from its tree. The machine also tells what was printed before an error.
def ofTree (o : BuildOptions) (printer : Printer) (pkg : Package) :
    Except BuildError Executable × Machine :=
  match finish o none pkg (Link.start printer) with
  | .ok e l => (.ok e, l.machine)
  | .error e l => (.error e, l.machine)

-- Builds a package from its files.
def ofFiles (o : BuildOptions) (printer : Printer) (frontEnd : FrontEnd)
    (files : List SourceFile) : Except BuildError Executable × Machine :=
  match frontEnd.parse files with
  | .error e => (.error (.frontEnd e), .start printer)
  | .ok pkg =>
      match finish o (some frontEnd) pkg (Link.start printer) with
      | .ok e l => (.ok e, l.machine)
      | .error e l => (.error e, l.machine)

-- Builds a package from the text of a single file.
def ofText (o : BuildOptions) (printer : Printer) (frontEnd : FrontEnd) (text : String) :
    Except BuildError Executable × Machine :=
  ofFiles o printer frontEnd [⟨"main." ++ SourceFile.defaultExtension, text⟩]

-- The value of a name of the package.
def global? (e : Executable) (name : String) : Exec (Option Value) := do
  return (← Exec.heap).local? e.scope name

-- Calls a function of the package.
def call (e : Executable) (name : String) (args : List Value) :
    Exec (Except EvalError (List Value)) := do
  match ← e.global? name with
  | some callee => e.program.callFunction e.fuel callee args
  | none => return .error (.ofCause (.undefinedFunction name))

-- The text of a value.
def format (e : Executable) (v : Value) : Exec String := (e.program.services e.fuel).show' v

-- The code of a method.
def method? (e : Executable) (typeName name : String) : Option Function :=
  (e.program.types.method? typeName name).bind fun m => e.program.code[m.code.id]?

-- The code of a function `f` of the package, or of a method `T.m`.
def function? (e : Executable) (name : String) : Exec (Option Function) := do
  match name.splitOn "." with
  | [typeName, method] => return e.method? typeName method
  | _ =>
      match ← e.global? name with
      | some (.func (some (.closure code _))) => return e.program.code[code.id]?
      | _ => return none

end Executable

end StepGraph
