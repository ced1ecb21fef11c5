import DeferredLog.FileTree

/-!
# Machines

What a command can do to the machine that it runs on: work on files and print. A command is written
for any machine. On the machine that is only a value, a `World`, it can be run and reasoned about.

* `World.Step` is a computation on that machine. Files are named by paths from the root.
-/

namespace DeferredLog

/-- The operations of a machine, for commands in a monad. -/
class Machine (m : Type → Type) where
  /-- The content of the file at a path. -/
  readFile : String → m (Except FileFault String)
  /-- Writes a content to the file at a path. -/
  writeFile : String → String → m (Except FileFault Unit)
  /-- Creates a directory and those on the way to it. -/
  createDirs : String → m (Except FileFault Unit)
  /-- Whether there is a file at a path. -/
  isFile : String → m Bool
  /-- Prints to the output stream. -/
  print : String → m Unit
  /-- Prints to the error stream. -/
  printError : String → m Unit

/-- A machine that is a value. -/
structure World where
  /-- Its files. -/
  tree : FileTree
  /-- What was printed to the output stream. -/
  output : String
  /-- What was printed to the error stream. -/
  diagnostics : String
  deriving DecidableEq, Repr

namespace World

/-- A machine on which nothing has been printed. -/
def new (tree : FileTree) : World :=
  ⟨tree, "", ""⟩

/-- A computation on a machine. -/
abbrev Step := StateM World

/-- An operation that may change the files. Where it fails they stay as they are. -/
def onTree (operation : FileTree → Except FileFault FileTree) : Step (Except FileFault Unit) :=
  fun world =>
    match operation world.tree with
    | .ok tree => (.ok (), { world with tree := tree })
    | .error fault => (.error fault, world)

instance : Machine Step where
  readFile path := fun world => (world.tree.read path, world)
  writeFile path content := onTree fun tree => tree.write path content
  createDirs path := onTree fun tree => tree.createDirs path
  isFile path := fun world => (world.tree.isFile path, world)
  print text := fun world => ((), { world with output := world.output ++ text })
  printError text := fun world => ((), { world with diagnostics := world.diagnostics ++ text })

end World

end DeferredLog
