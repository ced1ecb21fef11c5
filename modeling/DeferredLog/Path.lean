import DeferredLog.Text.Split

/-!
# Paths

A path is a sequence of components: the root, names, and steps to the parent directory. Repeated
slashes and single dots are no components, except that a path may start with a dot.

* `Path.normalize` resolves dots and parents without looking at files.
* `Path.append` takes a path from a directory.
* `Path.inProject?` is the part of a path behind the root of a project.
-/

namespace DeferredLog

namespace Path

/-- A component of a path. -/
inductive Component where
  | root
  /-- The dot that a relative path starts with. -/
  | current
  | parent
  | name (text : String)
  deriving DecidableEq, Repr

/-- The component that a piece between slashes is, unless it is empty or a dot. -/
def ofPiece? (piece : List Char) : Option Component :=
  if piece.isEmpty || piece = ['.'] then none
  else if piece = ['.', '.'] then some .parent
  else some (.name (String.ofList piece))

/-- What a path starts with, apart from names and parents. -/
def start (path : List Char) : List Component :=
  if path.head? = some '/' then [.root]
  else if (Text.splitOn '/' path).head? = some ['.'] then [.current]
  else []

/-- The components of a path. -/
def components (path : String) : List Component :=
  start path.toList ++ (Text.splitOn '/' path.toList).filterMap ofPiece?

/-- A component as text. -/
def Component.text : Component → String
  | .root => ""
  | .current => "."
  | .parent => ".."
  | .name text => text

/-- The path with the given components. -/
def render (path : List Component) : String :=
  match path with
  | [.root] => "/"
  | path => "/".intercalate (path.map Component.text)

/-- Whether the last component of a path can be taken off: it is there, and not the root. -/
def hasParent (path : List Component) : Bool :=
  match path.getLast? with
  | none | some .root => false
  | _ => true

/-- The path of the directory that holds a path; none for the root and the empty path. -/
def parent? (path : List Component) : Option (List Component) :=
  if hasParent path then some path.dropLast else none

/-- A normalized path and one more component. A step to the parent takes off the last component
where there is one to take off, and stays otherwise. -/
def step (path : List Component) : Component → List Component
  | .current => path
  | .parent => if hasParent path then path.dropLast else path ++ [.parent]
  | component => path ++ [component]

/-- A path with its dots and parents resolved. -/
def normalize (path : List Component) : List Component :=
  path.foldl step []

/-- The last component, if it is a name. -/
def fileName? (path : String) : Option String :=
  match (components path).getLast? with
  | some (.name text) => some text
  | _ => none

/-- A path taken from a directory, unless it starts at the root. -/
def append (directory path : String) : String :=
  if path.toList.head? = some '/' then path
  else if directory.isEmpty || directory.toList.getLast? = some '/' then directory ++ path
  else directory ++ "/" ++ path

/-- The part of a path behind a root, with forward slashes and without a query. It starts with a
slash; there is none if the path lies outside of the root. -/
def inProject? (path root : String) : Option String :=
  let bare := path.toList.takeWhile (· != '?')
  match Text.behind? (Text.dropRight '/' root.toList) bare with
  | some ('/' :: rest) => some (String.ofList (Text.replaceChar '\\' '/' ('/' :: rest)))
  | _ => none

/-- The text without any number of `./` at its front. -/
def dropDots : List Char → List Char
  | '.' :: '/' :: cs => dropDots cs
  | cs => cs

/-- The path of a module as written in a configuration: with forward slashes and one slash at its
front. -/
def ofSetting (setting : String) : String :=
  let bare := (dropDots (Text.replaceChar '\\' '/' setting.toList)).dropWhile (· = '/')
  String.ofList ('/' :: bare)

example : render (normalize (components "/p/src/./a/../logger")) = "/p/src/logger" := by
  decide +kernel

example : inProject? "/p/src/logger.ts?v=1" "/p/" = some "/src/logger.ts" := by decide +kernel

example : ofSetting "./src\\logger.ts" = "/src/logger.ts" := by decide +kernel

end Path

end DeferredLog
