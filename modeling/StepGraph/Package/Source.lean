import StepGraph.Package.FileTree
import StepGraph.Text.Quoted
import StepGraph.Tree.Package

namespace StepGraph

-- A file of a package, as it was read.
structure SourceFile where
  path : String
  text : String

inductive LoadError where
  | io (path : String) (cause : IoError)
  | noSources (dir : String)

namespace LoadError

def message : LoadError → String
  | io path cause => "cannot read " ++ Text.dumpPath path ++ ": " ++ cause.message
  | noSources dir => "no source files in " ++ Text.dumpPath dir

def label : LoadError → String
  | io .. => "Load.Io"
  | noSources _ => "Load.NoSources"

end LoadError

-- A path below a directory. A path from the root stays what it is.
def joinPath (dir path : String) : String :=
  if path.startsWith "/" then path
  else if dir.isEmpty || dir.endsWith "/" then dir ++ path
  else dir ++ "/" ++ path

-- What follows the last point of a file name, unless the name only starts with it.
def extension? (name : String) : Option String :=
  let parts := name.splitOn "."
  match parts.dropLast with
  | [] | [""] => none
  | _ => parts.getLast?

namespace SourceFile

def defaultExtension : String := "gx"

-- The source files that stand right in a directory, in the order of their names.
def load (t : FileTree) (dir extension : String) : Except LoadError (List SourceFile) := do
  let names ← (t.fileNames dir).mapError (.io dir)
  let names := names.filter fun x => extension? x == some extension
  if names.isEmpty then throw (.noSources dir)
  else
    (names.mergeSort fun x y => !decide (y < x)).mapM fun x =>
      let path := joinPath dir x
      match t.readText path with
      | .ok text => .ok ⟨path, text⟩
      | .error e => .error (.io path e)

end SourceFile

structure FrontEndError where
  message : String
  span : Option Span
  file : Option String

-- What turns the files of a package into its tree.
abbrev FrontEnd := List SourceFile → Except FrontEndError Package

namespace FrontEnd

-- Parses files. Where there is only one, an error is in that file if it does not say more.
def parse (fe : FrontEnd) (files : List SourceFile) : Except FrontEndError Package :=
  match files with
  | [file] => (fe files).mapError fun e => { e with file := e.file <|> some file.path }
  | _ => fe files

end FrontEnd

end StepGraph
