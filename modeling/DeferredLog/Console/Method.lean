import DeferredLog.Notice

/-!
# The methods of a console

A console is written to by one of six methods. Each has a severity, and those for diagnostics go to
the error stream.
-/

namespace DeferredLog

/-- A method of a console. -/
inductive ConsoleMethod where
  | log
  | info
  | debug
  | warn
  | error
  | trace
  deriving DecidableEq, Repr

namespace ConsoleMethod

/-- The name of a method. -/
def name : ConsoleMethod → String
  | .log => "log"
  | .info => "info"
  | .debug => "debug"
  | .warn => "warn"
  | .error => "error"
  | .trace => "trace"

/-- All methods. -/
def all : List ConsoleMethod := [.log, .info, .debug, .warn, .error, .trace]

/-- The method with a name. -/
def ofName? (name : String) : Option ConsoleMethod :=
  all.find? (·.name = name)

theorem ofName?_name (method : ConsoleMethod) : ofName? method.name = some method := by
  cases method <;> decide

/-- The method that takes the place of one that a console does not have. -/
def fallback : ConsoleMethod := .debug

/-- The severity of what is written by a method. -/
def severity : ConsoleMethod → Severity
  | .error => .error
  | .warn => .warn
  | .log | .info => .info
  | .debug => .debug
  | .trace => .trace

/-- Whether a method is for diagnostics. -/
def isDiagnostic : ConsoleMethod → Bool
  | .warn | .error => true
  | _ => false

end ConsoleMethod

end DeferredLog
