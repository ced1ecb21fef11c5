import DeferredLog.Command.Arguments
import DeferredLog.Command.Filter

/-!
# Settings of commands

What a command is run with besides its arguments, and how it ends.
-/

namespace DeferredLog

/-- What a command is run with. -/
structure Setting where
  /-- The directory that it is run in. -/
  directory : String
  /-- The variables of the environment. -/
  environment : String → Option String
  /-- Which notices it prints. -/
  filter : Filter

/-- How a command ends. -/
inductive Ending where
  /-- All went well. -/
  | success
  /-- Something failed. -/
  | failure
  /-- The arguments made no sense, and nothing was done. -/
  | misuse
  deriving DecidableEq, Repr

/-- The exit code of an ending. -/
def Ending.code : Ending → Nat
  | .success => 0
  | .failure => 1
  | .misuse => 2

namespace Setting

/-- A path from the root, for one that may start in the directory of the command. -/
def absolute (setting : Setting) (path : String) : String :=
  Path.append setting.directory path

/-- The value of an option: from the arguments, or else from a variable of the environment. -/
def value? (setting : Setting) (arguments : Arguments) (name variableName : String) :
    Option String :=
  arguments.value? name <|> setting.environment variableName

end Setting

/-- The version of the commands. -/
def commandVersion : String := "0.1.0"

/-- Prints the version of a command. -/
def printVersion {m : Type → Type} [Monad m] [Machine m] (command : String) : m Ending := do
  Machine.print (command ++ " " ++ commandVersion ++ "\n")
  return .success

end DeferredLog
