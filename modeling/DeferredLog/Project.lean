import DeferredLog.Notice
import DeferredLog.Path

/-!
# Projects

A project is a directory of modules, one of which is its logger. The root is known only once the
tool that rewrites the modules has been set up.
-/

namespace DeferredLog

/-- A project. -/
structure Project where
  /-- The path of the logger below the root, as it is written in the configuration. -/
  logger : String
  /-- The root directory, once it is known. -/
  root : Option String
  deriving DecidableEq, Repr

namespace Project

/-- The path of the logger where the configuration names none. -/
def defaultLogger : String := "/src/logger.ts"

/-- A project whose root is not known yet. -/
def new (logger : String) : Project :=
  ⟨logger, none⟩

/-- The path of the logger below the root. -/
def target (project : Project) : String :=
  Path.ofSetting project.logger

/-- The project with the given root. -/
def withRoot (project : Project) (root : String) : Project :=
  { project with root := some root }

/-- The notice of a root that has become known. -/
def rootNotice (root : String) : Notice :=
  ⟨.debug, "logger-call: project root " ++ root⟩

end Project

end DeferredLog
