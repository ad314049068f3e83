import StepGraph.Tree.Node

namespace StepGraph

-- The receiver of a method. `pointer` holds for `func (p *T) m()`.
structure Receiver where
  name : Option String
  typeName : String
  pointer : Bool

structure FuncDecl where
  name : String
  recv : Option Receiver
  sig : Signature
  body : List Stmt

inductive Decl where
  | const (specs : List ConstSpec)
  | var (spec : VarSpec)
  | type (name : String) (ty : Ty)
  | func (decl : FuncDecl)

structure Import where
  alias? : Option String
  path : String

namespace Import

-- The last segment of the path, which names the package when there is no alias.
def defaultName (i : Import) : String := (i.path.splitOn "/").getLast?.getD i.path

def boundName (i : Import) : String := i.alias?.getD i.defaultName

end Import

structure Package where
  name : String
  imports : List Import
  decls : List Decl

namespace Package

def funcs (p : Package) : List FuncDecl :=
  p.decls.filterMap fun
    | .func d => some d
    | _ => none

end Package

end StepGraph
