/-!
# Notices

Short messages about what the program does, each of a severity. Nothing else depends on them.
-/

namespace DeferredLog

/-- How much a message matters, the most important first. -/
inductive Severity where
  | error
  | warn
  | info
  | debug
  | trace
  deriving DecidableEq, Repr

namespace Severity

/-- The name of a severity. -/
def name : Severity → String
  | .error => "error"
  | .warn => "warn"
  | .info => "info"
  | .debug => "debug"
  | .trace => "trace"

/-- All severities. -/
def all : List Severity := [.error, .warn, .info, .debug, .trace]

/-- The severity with a name. -/
def ofName? (name : String) : Option Severity :=
  all.find? (·.name = name)

theorem ofName?_name (severity : Severity) : ofName? severity.name = some severity := by
  cases severity <;> decide

/-- The place of a severity among all of them. -/
def rank : Severity → Nat
  | .error => 1
  | .warn => 2
  | .info => 3
  | .debug => 4
  | .trace => 5

end Severity

/-- A message of a severity. -/
structure Notice where
  /-- How much it matters. -/
  severity : Severity
  /-- What it says. -/
  text : String
  deriving DecidableEq, Repr

end DeferredLog
