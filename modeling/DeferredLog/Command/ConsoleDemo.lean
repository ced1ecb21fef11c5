import DeferredLog.Command.Setting
import DeferredLog.Logger.Builder

/-!
# The command that shows a logger at work

A logger with two levels and two modifiers, and four calls of it, each of which is run at once. The
level `debug` is silent outside of development, and a modifier gives the label of a call a style.

* `ConsoleDemo.logger` is the logger.
* `ConsoleDemo.run` is the command.
-/

namespace DeferredLog.ConsoleDemo

/-- The name of the command. -/
def name : String := "console-logger"

/-- The target of its notices. -/
def target : String := "console_logger"

/-- The target of what the logger writes to the notices. -/
def sinkTarget : String := "console"

/-- The variable that names the mode. -/
def modeVariable : String := "MODE"

/-- What the command takes. -/
def rules : ArgumentRules where
  flags := []
  options := [⟨"mode", fun _ => true⟩, ⟨"sink", fun value => (Sink.ofName? value).isSome⟩]
  operand := fun _ => false

/-- Whether a mode is one of development. -/
def isDevelopment (mode : String) : Bool :=
  Text.hasPart "dev".toList mode.toList

/-! ## The logger -/

/-- Some arguments with a style for the first of them, the label. A label that is no string becomes
its text, and a missing one is empty. -/
def styled (style : String) (arguments : List Json) : List Json :=
  let label := match arguments.head? with
    | some value => Format.display value
    | none => ""
  .string ("%c" ++ label) :: .string style :: arguments.tail

/-- The handler that styles the label of a call. -/
def styling (style : String) : Handler Unit :=
  fun _ entry state => (.pass ⟨entry.method, styled style entry.arguments⟩, state)

/-- The handler that passes calls on if it is told to. -/
def gate (isOpen : Bool) : Handler Unit :=
  fun _ entry state => (if isOpen then .pass entry else .suppress, state)

/-- The levels of the logger. -/
def levels (development : Bool) : Plugin Unit :=
  (Plugin.empty.on "debug" (gate development)).on "log" (gate true)

/-- The modifiers of the logger. -/
def modifiers : Plugin Unit :=
  (Plugin.empty.on "red" (styling "background-color: red; color: white")).on "blue"
    (styling "background-color: blue; color: white")

/-- The logger. -/
def logger (development : Bool) (sink : Sink) : Logger Unit :=
  (((Builder.empty.levelPlugin (levels development)).modifierPlugin modifiers).withSink sink).build

/-- The calls that are shown. -/
def calls : List (Selector × List Json) := [
  (⟨"log", none⟩, [.string "plain message", .integer 1, .bool true]),
  (⟨"debug", none⟩, [.string "only visible in dev mode"]),
  (⟨"debug", some "red"⟩, [.string "alert", .ofMembers [("code", .integer 42)]]),
  (⟨"log", some "blue"⟩, [.string "info", .string "styled with %s", .string "css"])]

/-- The outcomes of some calls. -/
def outcomes (logger : Logger Unit) (calls : List (Selector × List Json)) :
    List (Except LoggerFault Action) :=
  calls.map fun (selector, arguments) => (logger.call selector arguments ()).1

/-- What some outcomes write. -/
def transcript (sink : Sink) (outcomes : List (Except LoggerFault Action)) : Transcript :=
  outcomes.foldl
    (fun transcript outcome =>
      match outcome with
      | .ok action => action.run sink transcript
      | .error _ => transcript)
    .empty

/-- The first fault among some outcomes. -/
def fault? (outcomes : List (Except LoggerFault Action)) : Option LoggerFault :=
  outcomes.findSome? fun
    | .ok _ => none
    | .error fault => some fault

/-! ## The command -/

variable {m : Type → Type} [Monad m] [Machine m]

/-- The notice of the mode. -/
def modeNotice (mode : String) : Notice :=
  ⟨.info, "mode " ++ mode ++ ", debug logs " ++
    if isDevelopment mode then "enabled" else "silenced"⟩

/-- Prints what has been written. -/
def printTranscript (setting : Setting) (transcript : Transcript) : m Unit := do
  Machine.print transcript.output
  Machine.printError transcript.diagnostics
  transcript.notices.forM (setting.filter.print sinkTarget)

/-- Makes the calls, in a mode and with a sink. -/
def execute (setting : Setting) (mode : String) (sink : Sink) : m Ending := do
  setting.filter.print target (modeNotice mode)
  let outcomes := outcomes (logger (isDevelopment mode) sink) calls
  printTranscript setting (transcript sink outcomes)
  match fault? outcomes with
  | none => return .success
  | some fault =>
    Machine.printError (fault.message ++ "\n")
    return .failure

/-- The command, told its arguments. -/
def run (setting : Setting) (arguments : List String) : m Ending :=
  match Arguments.parse rules arguments with
  | none => return .misuse
  | some .version => printVersion name
  | some (.run arguments) =>
    execute setting ((setting.value? arguments "mode" modeVariable).getD "production")
      (((arguments.value? "sink").bind Sink.ofName?).getD .stdio)

end DeferredLog.ConsoleDemo
