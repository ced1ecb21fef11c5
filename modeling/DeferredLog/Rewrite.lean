import DeferredLog.CallSite
import DeferredLog.Patch
import DeferredLog.Project

/-!
# Rewriting a module

A call of the logger gives back an action that does nothing until it is called in turn. Rewriting a
module puts that second call behind each statement that calls the logger, and changes nothing else.

* `Project.rewrite` rewrites a module of a project. A module that does not import the logger, or has
  no such statement, stays as it is.
* `Rewrite.patchOf` is the change itself, and `Rewrite.File.report` the way to it.

A report also has what was looked up to find the logger, and notices of what was done.
-/

namespace DeferredLog

/-- A rewritten module. -/
structure Rewrite where
  /-- Its text. -/
  code : List Char
  /-- Where the text comes from; none for a module that stays as it is. -/
  map : Option SourceMap
  deriving DecidableEq, Repr

/-- Why a module cannot be rewritten. -/
inductive RewriteFault where
  /-- The root of the project is not known yet. -/
  | noRoot
  /-- The text of a file is no program, and this is found at a position of it. -/
  | noProgram (file : String) (position : Position) (fault : Fault)
  deriving DecidableEq, Repr

/-- The message of a fault. Lines and columns count from one. -/
def RewriteFault.message : RewriteFault → String
  | .noRoot => "transform invoked before the project root was resolved"
  | .noProgram file position fault =>
    file ++ ":" ++ toString (position.line + 1) ++ ":" ++ toString (position.column + 1) ++ ": " ++
      fault.cause.text

/-- What comes of rewriting a module. -/
structure Report where
  /-- What was looked up to find the logger. -/
  lookups : List Lookup
  /-- What there is to say about it. -/
  notices : List Notice
  /-- The rewritten module. -/
  result : Except RewriteFault Rewrite

namespace Rewrite

/-- The text that calls the result of a call. -/
def invocation : List Char := ['(', ')']

/-- The patch that calls the result of each call of the logger. -/
def patchOf (source : List Char) (sites : List CallSite) : Patch :=
  (sites.filterMap (·.callEnd)).foldl (fun patch offset => patch.insert offset invocation)
    (Patch.of source)

/-- The module as it is. -/
def unchanged (source : List Char) : Rewrite :=
  ⟨source, none⟩

/-- A file of a project, and what is needed to rewrite it. -/
structure File where
  /-- The root of the project. -/
  root : String
  /-- The path of the logger below the root. -/
  target : String
  /-- How specifiers lead to modules. -/
  resolver : Resolver
  /-- The path of the file. -/
  path : String
  /-- Its text. -/
  source : List Char

namespace File

/-- The notice of a file. -/
def notice (file : File) (severity : Severity) (text : String) : Notice :=
  ⟨severity, file.path ++ ": " ++ text⟩

/-- The fault of a file that is no program. -/
def failure (file : File) (fault : Fault) : RewriteFault :=
  .noProgram file.path (Position.ofOffset file.source fault.offset) fault

/-- The name that the map of a file has for the rewritten one. -/
def name (file : File) : String :=
  (Path.fileName? file.path).getD file.path

/-- The search for the import of the logger. -/
def search (file : File) (trees : List Tree) : Binding.Search :=
  Binding.search (fun specifier => file.resolver specifier file.path) file.root file.target
    (Import.ofTrees trees)

/-- The notices of the statements that the names of the logger occur in. -/
def siteNotices (file : File) (sites : List CallSite) : List Notice :=
  sites.filterMap (·.notice?) ++ (sites.filterMap (·.callEnd)).map fun stop =>
    file.notice .trace ("invoking deferred call ending at " ++ toString stop)

/-- The notice of a file that imports the logger. -/
def summary (file : File) (patch : Patch) (sites : List CallSite) : Notice :=
  file.notice .debug <|
    if patch.changes then
      "rewrote " ++ toString patch.insertions.length ++ " of " ++ toString sites.length ++
        " candidate statements"
    else "imports " ++ file.target ++ " but has no call sites"

/-- The file with a patch made. Its map has a segment for each token. -/
def apply (file : File) (tokens : List Token) (patch : Patch) : Rewrite :=
  if patch.changes then
    ⟨patch.render, some (patch.sourceMap file.name file.path (tokens.map (·.start)))⟩
  else unchanged file.source

/-- What comes of a file whose import of the logger has been looked for. -/
def found (file : File) (tokens : List Token) (trees : List Tree) (search : Binding.Search) :
    List Notice × Except RewriteFault Rewrite :=
  match search.binding with
  | none =>
    ([file.notice .debug ("no import of " ++ file.target)], .ok (unchanged file.source))
  | some binding =>
    match Program.ofTrees trees with
    | .error fault => ([], .error (file.failure fault))
    | .ok program =>
      let sites := CallSite.locate file.source program binding.names binding.span.stop
      let patch := patchOf file.source sites
      (file.siteNotices sites ++ [file.summary patch sites], .ok (file.apply tokens patch))

/-- The report on a file. -/
def report (file : File) : Report :=
  if !Import.mayOccur file.source then
    ⟨[], [file.notice .trace "no module syntax"], .ok (unchanged file.source)⟩
  else
    match Token.scan file.source with
    | .error fault => ⟨[], [], .error (file.failure fault)⟩
    | .ok tokens =>
      match Tree.ofTokens tokens with
      | .error fault => ⟨[], [], .error (file.failure fault)⟩
      | .ok trees =>
        let search := file.search trees
        let (notices, result) := file.found tokens trees search
        ⟨search.lookups, search.notices file.path ++ notices, result⟩

end File

end Rewrite

/-- Rewrites a module of a project: the file with the given path and text. -/
def Project.rewrite (project : Project) (resolver : Resolver) (path : String)
    (source : List Char) : Report :=
  match project.root with
  | none => ⟨[], [], .error .noRoot⟩
  | some root => Rewrite.File.report ⟨root, project.target, resolver, path, source⟩

end DeferredLog
