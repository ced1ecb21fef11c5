import DeferredLog.Command.Setting
import DeferredLog.FileTree.Resolve
import DeferredLog.Rewrite

/-!
# The command that rewrites files

Each file that is named is rewritten as a module of the project. The result is printed, or written to
an output directory together with its source map. A file that fails is reported, and the others are
rewritten all the same.

* `RewriteFiles.process` rewrites one file.
* `RewriteFiles.run` is the command.
* `resolve_world`: on a machine that is a value, specifiers are resolved in its file tree.
-/

namespace DeferredLog.RewriteFiles

/-- The name of the command. -/
def name : String := "transform-file"

/-- The target of its notices. -/
def target : String := "transform_file"

/-- The variable that names the root of the project. -/
def rootVariable : String := "LOGGER_CALL_ROOT"

/-- What the command takes. An empty text is no path. -/
def rules : ArgumentRules where
  flags := ["verbose"]
  options := [
    ⟨"root", fun value => !value.isEmpty⟩,
    ⟨"logger-config-file", fun _ => true⟩,
    ⟨"out-dir", fun value => !value.isEmpty⟩]
  operand := fun operand => !operand.isEmpty

/-- What the command is to do. -/
structure Options where
  /-- The root of the project. -/
  root : String
  /-- The path of the logger below the root. -/
  logger : String
  /-- The directory to write to. -/
  outDir : Option String
  /-- Whether to tell about each file. -/
  verbose : Bool
  /-- The files to rewrite. -/
  files : List String
  deriving DecidableEq, Repr

/-- What the arguments ask for, unless they make no sense. -/
def options? (setting : Setting) (arguments : Arguments) : Option Options :=
  let root := (setting.value? arguments "root" rootVariable).getD "."
  if root.isEmpty || arguments.operands.isEmpty then none
  else
    some {
      root := root
      logger := (arguments.value? "logger-config-file").getD Project.defaultLogger
      outDir := arguments.value? "out-dir"
      verbose := arguments.flags.contains "verbose"
      files := arguments.operands }

/-- Why a file is not rewritten. -/
inductive Failure where
  /-- A file cannot be read or written. -/
  | file (path : String) (fault : FileFault)
  /-- The module cannot be rewritten. -/
  | rewrite (fault : RewriteFault)
  deriving DecidableEq, Repr

/-- The message of a failure. -/
def Failure.message : Failure → String
  | .file path fault => path ++ ": " ++ fault.message
  | .rewrite fault => fault.message

variable {m : Type → Type} [Monad m] [Machine m]

/-! ## One file -/

/-- The first of some paths that is a file. -/
def findFile : List String → m (Option String)
  | [] => return none
  | path :: paths => do
    if ← Machine.isFile path then return some path else findFile paths

/-- What a specifier in a module is resolved to. -/
def resolve (root specifier importer : String) : m (Option String) :=
  match FileTree.basePath? root specifier importer with
  | none => return none
  | some base => findFile (FileTree.candidates FileTree.extensions base)

theorem findFile_world (paths : List String) (world : World) :
    (findFile paths : World.Step _).run world = (paths.find? world.tree.isFile, world) := by
  induction paths with
  | nil => rfl
  | cons path paths ih =>
    rw [findFile, List.find?_cons]
    change (if world.tree.isFile path = true then (return some path : World.Step _)
      else findFile paths).run world = _
    cases world.tree.isFile path with
    | true => rfl
    | false => exact ih

theorem resolve_world (root specifier importer : String) (world : World) :
    (resolve root specifier importer : World.Step _).run world =
      (FileTree.resolve world.tree.isFile FileTree.extensions root specifier importer, world) := by
  rw [resolve, FileTree.resolve]
  cases FileTree.basePath? root specifier importer with
  | none => rfl
  | some base => exact findFile_world _ world

/-- The specifiers of a module that may have to be resolved. -/
def specifiers (source : List Char) : List String :=
  match Tree.parse source with
  | .ok trees => (Import.ofTrees trees).filterMap (·.candidate?)
  | .error _ => []

/-- The resolver that knows what some specifiers lead to. -/
def resolverOf (known : List (String × Option String)) : Resolver :=
  fun specifier _ => (known.lookup specifier).join

/-- Rewrites a module, told its path and text. -/
def rewrite (project : Project) (path : String) (source : List Char) : m Report := do
  let known ← (specifiers source).mapM fun specifier => do
    return (specifier, ← resolve (project.root.getD "") specifier path)
  return project.rewrite (resolverOf known) path source

/-- Writes a file in the output directory. -/
def writeOut (setting : Setting) (outDir file content : String) : m (Except Failure Unit) := do
  let path := Path.append outDir file
  match ← Machine.writeFile (setting.absolute path) content with
  | .ok () => return .ok ()
  | .error fault => return .error (.file path fault)

/-- Writes a rewritten module and its map, if it has one, to the output directory. -/
def writeAll (setting : Setting) (outDir file : String) (result : Rewrite) :
    m (Except Failure Unit) := do
  match ← writeOut setting outDir file (String.ofList result.code) with
  | .error failure => return .error failure
  | .ok () =>
    match result.map with
    | none => return .ok ()
    | some map => writeOut setting outDir (file ++ ".map") map.text

/-- Rewrites a file, and says whether anything has changed. -/
def process (setting : Setting) (project : Project) (outDir : Option String) (file : String) :
    m (Except Failure Bool) := do
  let path := setting.absolute file
  match ← Machine.readFile path with
  | .error fault => return .error (.file path fault)
  | .ok content =>
    match (← rewrite project path content.toList).result with
    | .error fault => return .error (.rewrite fault)
    | .ok result =>
      match outDir with
      | none =>
        Machine.print (String.ofList result.code)
        return .ok result.map.isSome
      | some outDir =>
        match ← writeAll setting outDir ((Path.fileName? path).getD "") result with
        | .error failure => return .error failure
        | .ok () => return .ok result.map.isSome

/-! ## The command -/

/-- Prints a notice of the command. -/
def notice (setting : Setting) (severity : Severity) (text : String) : m Unit :=
  setting.filter.print target ⟨severity, text⟩

/-- Rewrites a file and reports on it. The answer is whether that went well. -/
def processAndReport (setting : Setting) (project : Project) (options : Options) (file : String) :
    m Bool := do
  match ← process setting project options.outDir file with
  | .ok changed =>
    if options.verbose then
      notice setting .info (file ++ ": " ++ if changed then "rewritten" else "unchanged")
    return true
  | .error failure =>
    notice setting .error failure.message
    Machine.printError (failure.message ++ "\n")
    return false

/-- Rewrites the files. -/
def processFiles (setting : Setting) (options : Options) : m Ending := do
  let root := setting.absolute options.root
  let project := (Project.new options.logger).withRoot root
  if options.verbose then
    notice setting .info ("Project root: " ++ root)
    notice setting .info ("Logger module: " ++ project.target)
  let results ← options.files.mapM (processAndReport setting project options)
  return if results.all id then .success else .failure

/-- Does what the options ask for. -/
def execute (setting : Setting) (options : Options) : m Ending := do
  match options.outDir with
  | none => processFiles setting options
  | some outDir =>
    match ← Machine.createDirs (setting.absolute outDir) with
    | .ok () => processFiles setting options
    | .error fault =>
      Machine.printError ("Failed to create " ++ outDir ++ ": " ++ fault.message ++ "\n")
      return .failure

/-- The command, told its arguments. -/
def run (setting : Setting) (arguments : List String) : m Ending :=
  match Arguments.parse rules arguments with
  | none => return .misuse
  | some .version => printVersion name
  | some (.run arguments) =>
    match options? setting arguments with
    | none => return .misuse
    | some options => execute setting options

end DeferredLog.RewriteFiles
