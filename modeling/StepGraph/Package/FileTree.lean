namespace StepGraph

-- Why the file system refuses to read.
inductive IoError where
  | notFound
  | notADirectory
  | isADirectory
  | invalidText
  deriving DecidableEq

namespace IoError

def message : IoError → String
  | notFound => "No such file or directory (os error 2)"
  | notADirectory => "Not a directory (os error 20)"
  | isADirectory => "Is a directory (os error 21)"
  | invalidText => "stream did not contain valid UTF-8"

end IoError

inductive FileEntry where
  | file (content : ByteArray)
  | dir

-- Files and directories by the names that lead to them. A directory that holds something
-- need not have an entry of its own.
structure FileTree where
  entries : List (List String × FileEntry)

namespace FileTree

def empty : FileTree := ⟨[]⟩

-- What stands at a place of the tree.
def nodeAt? (t : FileTree) (place : List String) : Option FileEntry :=
  match (t.entries.filter (·.1 == place)).getLast? with
  | some (_, e) => some e
  | none => if t.entries.any fun (p, _) => place.isPrefixOf p then some .dir else none

-- Follows names from a directory on. `.` and an empty name stay, and `..` goes up.
def follow (t : FileTree) : List String → List String → Except IoError (List String)
  | place, [] => .ok place
  | place, name :: rest =>
      match t.nodeAt? place with
      | none => .error .notFound
      | some (.file _) => .error .notADirectory
      | some .dir =>
          if name = "" || name = "." then t.follow place rest
          else if name = ".." then t.follow place.dropLast rest
          else t.follow (place ++ [name]) rest

-- What a path leads to, and where that is.
def find (t : FileTree) (path : String) : Except IoError (List String × FileEntry) := do
  let place ← t.follow [] (path.splitOn "/")
  match t.nodeAt? place with
  | some e => return (place, e)
  | none => throw .notFound

def isDir (t : FileTree) (path : String) : Bool :=
  match t.find path with
  | .ok (_, .dir) => true
  | _ => false

-- The names in a directory.
def namesAt (t : FileTree) (place : List String) : List String :=
  (t.entries.filterMap fun (p, _) =>
    if place.isPrefixOf p then (p.drop place.length).head? else none).eraseDups

-- The names of the files of a directory, without those of the directories in it.
def fileNames (t : FileTree) (path : String) : Except IoError (List String) := do
  match ← t.find path with
  | (place, .dir) =>
      return (t.namesAt place).filter fun x =>
        match t.nodeAt? (place ++ [x]) with
        | some (.file _) => true
        | _ => false
  | (_, .file _) => throw .notADirectory

def readText (t : FileTree) (path : String) : Except IoError String := do
  match ← t.find path with
  | (_, .file content) =>
      match String.fromUTF8? content with
      | some s => return s
      | none => throw .invalidText
  | (_, .dir) => throw .isADirectory

end FileTree

end StepGraph
