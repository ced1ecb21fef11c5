import DeferredLog.Command.ConsoleDemo
import DeferredLog.Command.RewriteFiles

/-!
# The program

The two commands on a real machine. The first argument names the command.
-/

namespace DeferredLog

/-- The number of the error that a path leads through a file. Some operations negate it. -/
def notDirectoryCode : UInt32 := 20

/-- The fault that an error of the operating system stands for. -/
def FileFault.ofError (error : IO.Error) : FileFault :=
  match error with
  | .noFileOrDirectory .. => .missing
  | .alreadyExists .. => .occupied
  | .inappropriateType _ code _ =>
    if code = notDirectoryCode || code = 0 - notDirectoryCode then .notDirectory else .directory
  | error => .other (toString error)

/-- An operation on files, with its error as a fault. -/
def attempt {α : Type} (operation : IO α) : IO (Except FileFault α) := do
  try return .ok (← operation)
  catch error => return .error (.ofError error)

instance : Machine IO where
  readFile path := attempt (IO.FS.readFile path)
  writeFile path content := attempt (IO.FS.writeFile path content)
  createDirs path := attempt (IO.FS.createDirAll path)
  isFile path := do
    try
      let found ← IO.FS.realPath path
      return (← found.metadata).type matches .file
    catch _ => return false
  print text := IO.print text
  printError text := IO.eprint text

/-- The variables of the environment that a command asks for. -/
def variableNames : List String := [RewriteFiles.rootVariable, ConsoleDemo.modeVariable]

/-- The variable that holds the filter of the notices. -/
def filterVariable : String := "LOGGER_CALL_LOG"

/-- What a command is run with on this machine. -/
def setting : IO Setting := do
  let known ← variableNames.mapM fun name => do return (name, ← IO.getEnv name)
  return {
    directory := (← IO.currentDir).toString
    environment := fun name => (known.lookup name).join
    filter := Filter.parse ((← IO.getEnv filterVariable).getD "") }

/-- How to call the program. -/
def usage : String :=
  "usage: " ++ RewriteFiles.name ++ " [--root DIR] [--logger-config-file PATH] [--out-dir DIR]" ++
    " [--verbose] FILE...\n       " ++ ConsoleDemo.name ++ " [--mode MODE] [--sink SINK]\n"

/-- Runs the command with a name. -/
def runCommand (name : String) (arguments : List String) : IO Ending := do
  if name = RewriteFiles.name then RewriteFiles.run (← setting) arguments
  else if name = ConsoleDemo.name then ConsoleDemo.run (← setting) arguments
  else return .misuse

end DeferredLog

/-- The program, told its arguments. -/
def main (arguments : List String) : IO UInt32 := do
  let ending ← DeferredLog.runCommand (arguments.headD "") arguments.tail
  if ending = .misuse then IO.eprint DeferredLog.usage
  return ending.code.toUInt32
