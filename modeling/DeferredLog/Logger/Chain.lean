import DeferredLog.Logger.Plugin

/-!
# Chains of handlers

A call runs through the handlers that the level plugins have for its level, and then, if it has a
modifier, through those that the modifier plugins have for that. Each is given the console call that
the one before it passed on.

* `Chain.evaluate` runs a call, which starts as a call of the console method named like its level.
* `Chain.handlers` is the list of the handlers that a call may run through.
* `fold_eq_run`: running the plugins is running their handlers, up to the first that does not pass
  the call on.
-/

namespace DeferredLog

/-- The plugins of a logger. -/
structure Chain (σ : Type) where
  /-- The plugins for levels. -/
  levels : List (Plugin σ)
  /-- The plugins for modifiers. -/
  modifiers : List (Plugin σ)

namespace Chain

variable {σ : Type}

/-- Runs a console call through the handlers that some plugins have for a name. -/
def fold (name : String) (selector : Selector) : List (Plugin σ) → Entry → σ → Verdict × σ
  | [], entry, state => (.pass entry, state)
  | plugin :: plugins, entry, state =>
    match plugin.handler? name with
    | none => fold name selector plugins entry state
    | some handler =>
      match handler selector entry state with
      | (.pass entry, state) => fold name selector plugins entry state
      | stopped => stopped

/-- The console call that a call starts as. -/
def start (sink : Sink) (selector : Selector) (arguments : List Json) : Entry :=
  ⟨if sink.supports selector.level then selector.level else ConsoleMethod.fallback.name, arguments⟩

/-- Runs a call through the plugins. -/
def evaluate (chain : Chain σ) (sink : Sink) (selector : Selector) (arguments : List Json)
    (state : σ) : Verdict × σ :=
  match fold selector.level selector chain.levels (start sink selector arguments) state with
  | (.pass entry, state) =>
    match selector.modifier with
    | none => (.pass entry, state)
    | some modifier => fold modifier selector chain.modifiers entry state
  | stopped => stopped

/-- The handlers that a call may run through. -/
def handlers (chain : Chain σ) (selector : Selector) : List (Handler σ) :=
  chain.levels.filterMap (·.handler? selector.level) ++
    match selector.modifier with
    | none => []
    | some modifier => chain.modifiers.filterMap (·.handler? modifier)

/-- The number of the handlers that a call may run through. -/
def length (chain : Chain σ) (selector : Selector) : Nat :=
  chain.levels.countP (·.handles selector.level) +
    match selector.modifier with
    | none => 0
    | some modifier => chain.modifiers.countP (·.handles modifier)

/-- Runs a console call through some handlers. -/
def run (selector : Selector) : List (Handler σ) → Entry → σ → Verdict × σ
  | [], entry, state => (.pass entry, state)
  | handler :: handlers, entry, state =>
    match handler selector entry state with
    | (.pass entry, state) => run selector handlers entry state
    | stopped => stopped

theorem fold_eq_run (name : String) (selector : Selector) (plugins : List (Plugin σ))
    (entry : Entry) (state : σ) :
    fold name selector plugins entry state =
      run selector (plugins.filterMap (·.handler? name)) entry state := by
  induction plugins generalizing entry state with
  | nil => rfl
  | cons plugin plugins ih =>
    rw [fold]
    cases h : plugin.handler? name with
    | none => simp [h, ih]
    | some handler =>
      simp only [h, List.filterMap_cons, run]
      split
      · simp only [ih]
      · rfl

end Chain

end DeferredLog
