import DeferredLog.Logger.Chain

/-!
# Loggers

A logger is made of plugins and a sink. It can be called by the levels and modifiers that its plugins
handle, and every level goes with every modifier. A call writes nothing: it gives back an action.

* `Logger.evaluate` is the action of a call, whatever it is called by.
* `Logger.call` checks first that the level and the modifier are known.
* `Logger.get?` and `Logger.level?` find out what a logger can be called by.
* `Action.run` is what an action writes.
-/

namespace DeferredLog

/-- What is left to do for a call. -/
inductive Action where
  /-- To make a console call. -/
  | emit (entry : Entry)
  /-- Nothing. -/
  | noop
  deriving Repr

namespace Action

/-- The transcript with an action performed. -/
def run (action : Action) (sink : Sink) (transcript : Transcript) : Transcript :=
  match action with
  | .emit entry => sink.emit entry transcript
  | .noop => transcript

/-- The transcript with an action performed a number of times. -/
def runTimes (action : Action) (sink : Sink) (transcript : Transcript) : Nat → Transcript
  | 0 => transcript
  | n + 1 => runTimes action sink (action.run sink transcript) n

/-- The debugging view of an action. -/
def shown : Action → String
  | .noop => "Noop"
  | .emit entry =>
    "Emit(BindConfig \x7b method: " ++ Text.quote entry.method ++ ", args: [" ++
      Json.itemsShown entry.arguments ++ "] \x7d)"

end Action

/-- Why a call has no action. -/
inductive LoggerFault where
  /-- No plugin handles the level. -/
  | unknownLevel (level : String)
  /-- No plugin handles the modifier. -/
  | unknownModifier (modifier level : String)
  /-- A handler has failed. -/
  | plugin (message : String)
  deriving DecidableEq, Repr

/-- The message of a fault. -/
def LoggerFault.message : LoggerFault → String
  | .unknownLevel level => "unknown log level: " ++ level
  | .unknownModifier modifier level => "unknown modifier " ++ modifier ++ " for level " ++ level
  | .plugin message => "plugin handler failed: " ++ message

/-- What a verdict leaves to do. -/
def Verdict.action : Verdict → Except LoggerFault Action
  | .pass entry => .ok (.emit entry)
  | .suppress => .ok .noop
  | .fail message => .error (.plugin message)

/-- The debugging view of what a logger is called by. -/
def Selector.shown (selector : Selector) : String :=
  let modifier := match selector.modifier with
    | none => "None"
    | some modifier => "Some(" ++ Text.quote modifier ++ ")"
  "LogFn \x7b level: " ++ Text.quote selector.level ++ ", modifier: " ++ modifier ++ " \x7d"

/-- A level of a logger. -/
structure Level where
  /-- Its name. -/
  name : String
  /-- The modifiers that it goes with, in order. -/
  modifiers : List String
  deriving DecidableEq, Repr

namespace Level

/-- The level without a modifier. -/
def selector (level : Level) : Selector :=
  ⟨level.name, none⟩

/-- The level with a modifier that it goes with. -/
def modifier? (level : Level) (name : String) : Option Selector :=
  if level.modifiers.contains name then some ⟨level.name, some name⟩ else none

end Level

/-- A logger. -/
structure Logger (σ : Type) where
  /-- Its plugins. -/
  chain : Chain σ
  /-- Where its actions write. -/
  sink : Sink

namespace Logger

variable {σ : Type}

/-! ## Vocabulary -/

/-- Puts a name among others in order, unless it is there. -/
def insertName (name : String) : List String → List String
  | [] => [name]
  | other :: rest =>
    if name = other then other :: rest
    else if name < other then name :: other :: rest
    else other :: insertName name rest

/-- The names that some plugins handle, in order and each once. -/
def vocabulary (plugins : List (Plugin σ)) : List String :=
  (plugins.flatMap (·.names)).foldr insertName []

/-- The levels that a logger can be called by. -/
def levelNames (logger : Logger σ) : List String :=
  vocabulary logger.chain.levels

/-- The modifiers that a logger can be called by. -/
def modifierNames (logger : Logger σ) : List String :=
  vocabulary logger.chain.modifiers

/-- The level with a name. -/
def level? (logger : Logger σ) (name : String) : Option Level :=
  if logger.levelNames.contains name then some ⟨name, logger.modifierNames⟩ else none

/-- The parts of a text before and behind its first dot. -/
def cutAtDot (path : String) : String × Option String :=
  match path.toList.span (· != '.') with
  | (first, []) => (String.ofList first, none)
  | (first, _ :: rest) => (String.ofList first, some (String.ofList rest))

/-- What a path calls a logger by: a level, or a level and a modifier with a dot between them. -/
def get? (logger : Logger σ) (path : String) : Option Selector :=
  match cutAtDot path with
  | (level, none) => (logger.level? level).map (·.selector)
  | (level, some modifier) => (logger.level? level).bind (·.modifier? modifier)

/-! ## Calls -/

/-- The action of a call. -/
def evaluate (logger : Logger σ) (selector : Selector) (arguments : List Json) (state : σ) :
    Except LoggerFault Action × σ :=
  let (verdict, state) := logger.chain.evaluate logger.sink selector arguments state
  (verdict.action, state)

/-- The action of a call by names. No handler runs where one of them is unknown. -/
def call (logger : Logger σ) (selector : Selector) (arguments : List Json) (state : σ) :
    Except LoggerFault Action × σ :=
  match logger.level? selector.level with
  | none => (.error (.unknownLevel selector.level), state)
  | some level =>
    match selector.modifier with
    | none => logger.evaluate level.selector arguments state
    | some modifier =>
      match level.modifier? modifier with
      | none => (.error (.unknownModifier modifier level.name), state)
      | some selector => logger.evaluate selector arguments state

/-- The debugging view of a logger. -/
def shown (logger : Logger σ) : String :=
  "Logger \x7b levels: " ++ Plugin.quoted logger.levelNames ++ " \x7d"

theorem mem_insertName (name other : String) (names : List String) :
    other ∈ insertName name names ↔ other = name ∨ other ∈ names := by
  induction names with
  | nil => simp [insertName]
  | cons first rest ih =>
    rw [insertName]
    split
    · rename_i h
      subst h
      simp
    · split
      · simp
      · simp only [List.mem_cons, ih]
        exact or_left_comm

theorem mem_vocabulary (name : String) (plugins : List (Plugin σ)) :
    name ∈ vocabulary plugins ↔ ∃ plugin ∈ plugins, name ∈ plugin.names := by
  have h : ∀ names : List String, name ∈ names.foldr insertName [] ↔ name ∈ names := by
    intro names
    induction names with
    | nil => simp
    | cons first rest ih => simp [mem_insertName, ih]
  rw [vocabulary, h, List.mem_flatMap]

end Logger

end DeferredLog
