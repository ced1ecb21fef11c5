import Mathlib.Data.List.Chain
import DeferredLog.Logger

/-!
# The course of a call

A call runs through handlers until one of them suppresses it or fails. Which handlers run, and on what,
is seen by noting it down: `Logger.noted` is a logger whose handlers do what they did before and leave a
note each time they run, next to the state, where no handler can look.

* `Chain.evaluate_eq_run`: running the plugins is running the handlers that `Chain.handlers` lists.
* `Logger.Course`: what the notes of a call have to say.
* `Logger.evaluate_course`: what they do say.
-/

namespace DeferredLog

variable {σ : Type}

/-- That a handler has run. -/
structure Invocation (σ : Type) where
  /-- The handler. -/
  handler : Handler σ
  /-- What the logger was called by. -/
  selector : Selector
  /-- The console call that the handler was given. -/
  entry : Entry
  /-- The state in which it ran. -/
  found : σ
  /-- What became of the call. -/
  verdict : Verdict
  /-- The state that it left. -/
  left : σ

/-! ## Notes -/

/-- A handler that does the same and notes it down. -/
def noted (handler : Handler σ) : Handler (σ × List (Invocation σ)) :=
  fun selector entry (state, notes) =>
    let (verdict, left) := handler selector entry state
    (verdict, left, notes ++ [⟨handler, selector, entry, state, verdict, left⟩])

/-- A plugin whose handlers note down that they run. -/
def Plugin.noted (plugin : Plugin σ) : Plugin (σ × List (Invocation σ)) :=
  ⟨plugin.handlers.map fun (name, handler) => (name, DeferredLog.noted handler)⟩

/-- A logger whose handlers note down that they run. -/
def Logger.noted (logger : Logger σ) : Logger (σ × List (Invocation σ)) :=
  ⟨⟨logger.chain.levels.map Plugin.noted, logger.chain.modifiers.map Plugin.noted⟩, logger.sink⟩

namespace Plugin

@[simp]
theorem names_noted (plugin : Plugin σ) : plugin.noted.names = plugin.names := by
  simp [Plugin.noted, names]

theorem handler?_noted (plugin : Plugin σ) (name : String) :
    plugin.noted.handler? name = (plugin.handler? name).map DeferredLog.noted := by
  obtain ⟨handlers⟩ := plugin
  show (handlers.map fun (n, h) => (n, DeferredLog.noted h)).lookup name =
    (handlers.lookup name).map DeferredLog.noted
  induction handlers with
  | nil => rfl
  | cons head rest ih =>
    obtain ⟨first, handler⟩ := head
    rw [List.map_cons, List.lookup_cons, List.lookup_cons]
    cases name == first with
    | true => rfl
    | false => exact ih

theorem filterMap_noted (plugins : List (Plugin σ)) (name : String) :
    (plugins.map Plugin.noted).filterMap (·.handler? name) =
      (plugins.filterMap (·.handler? name)).map DeferredLog.noted := by
  rw [List.filterMap_map, List.map_filterMap]
  congr 1
  funext plugin
  exact handler?_noted plugin name

end Plugin

/-! ## Handlers in a row -/

namespace Chain

theorem length_handlers (chain : Chain σ) (selector : Selector) :
    (chain.handlers selector).length = chain.length selector := by
  have count : ∀ (plugins : List (Plugin σ)) (name : String),
      (plugins.filterMap (·.handler? name)).length = plugins.countP (·.handles name) :=
    fun plugins name => List.length_filterMap_eq_countP ..
  rw [handlers, length, List.length_append, count]
  cases selector.modifier with
  | none => rfl
  | some modifier => rw [count]

theorem run_append (selector : Selector) (first second : List (Handler σ)) (entry : Entry)
    (state : σ) :
    run selector (first ++ second) entry state =
      match run selector first entry state with
      | (.pass entry, state) => run selector second entry state
      | stopped => stopped := by
  induction first generalizing entry state with
  | nil => rfl
  | cons handler first ih =>
    rw [List.cons_append, run, run]
    split
    · exact ih ..
    · rename_i h
      split
      · rename_i h'
        cases h _ _ h'
      · rfl

/-- Running a call through the plugins is running it through the handlers that they have for it. -/
theorem evaluate_eq_run (chain : Chain σ) (sink : Sink) (selector : Selector)
    (arguments : List Json) (state : σ) :
    chain.evaluate sink selector arguments state =
      run selector (chain.handlers selector) (start sink selector arguments) state := by
  rw [evaluate, handlers, run_append, fold_eq_run]
  generalize run selector (chain.levels.filterMap _) _ state = result
  obtain ⟨verdict, state⟩ := result
  cases verdict with
  | pass entry =>
    cases selector.modifier with
    | none => rfl
    | some modifier => exact fold_eq_run ..
  | suppress | fail => rfl

/-- The handlers of a call that run, each on what the one before it passed on. -/
def invocations (selector : Selector) : List (Handler σ) → Entry → σ → List (Invocation σ)
  | [], _, _ => []
  | handler :: handlers, entry, state =>
    match handler selector entry state with
    | (.pass passed, left) =>
      ⟨handler, selector, entry, state, .pass passed, left⟩ ::
        invocations selector handlers passed left
    | (verdict, left) => [⟨handler, selector, entry, state, verdict, left⟩]

theorem run_noted (selector : Selector) (handlers : List (Handler σ)) (entry : Entry) (state : σ)
    (notes : List (Invocation σ)) :
    run selector (handlers.map noted) entry (state, notes) =
      ((run selector handlers entry state).1, (run selector handlers entry state).2,
        notes ++ invocations selector handlers entry state) := by
  induction handlers generalizing entry state notes with
  | nil => simp [run, invocations]
  | cons handler handlers ih =>
    rw [List.map_cons, run, run, invocations, noted]
    rcases handler selector entry state with ⟨verdict, left⟩
    cases verdict with
    | pass passed =>
      dsimp only
      rw [ih, List.append_assoc, List.singleton_append]
    | suppress | fail => rfl

end Chain

/-! ## What the notes say -/

/-- What it means that some handlers have been run through: each that has run was given what the one
before it passed on, and the last one decides. -/
structure Ran (selector : Selector) (handlers : List (Handler σ)) (entry : Entry) (state : σ)
    (invocations : List (Invocation σ)) (verdict : Verdict) : Prop where
  /-- Those that have run are the first of the handlers, in order and each once. -/
  inOrder : invocations.map (·.handler) <+: handlers
  /-- Each was told the selector and did what it does. -/
  answers : ∀ i ∈ invocations,
    i.selector = selector ∧ i.handler selector i.entry i.found = (i.verdict, i.left)
  /-- The first one was given the console call that there was at the start. -/
  first : ∀ i ∈ invocations.head?, i.entry = entry ∧ i.found = state
  /-- Each later one was given what its predecessor passed on. -/
  next : invocations.IsChain fun i j => i.verdict = .pass j.entry ∧ i.left = j.found
  /-- Each but the last passes the call on. -/
  passes : ∀ i ∈ invocations.dropLast, ∃ passed, i.verdict = .pass passed
  /-- If the last one does so too, all of the handlers have run. -/
  whole : (∀ i ∈ invocations, ∃ passed, i.verdict = .pass passed) →
    invocations.map (·.handler) = handlers
  /-- What becomes of the call is what the last one made of it. -/
  decides : verdict = (invocations.getLast?.map (·.verdict)).getD (.pass entry)

namespace Ran

variable {selector : Selector} {handler : Handler σ} {handlers : List (Handler σ)}
  {entry passed : Entry} {state left : σ} {invocations : List (Invocation σ)} {verdict : Verdict}

theorem nil : Ran selector [] entry state [] (.pass entry) where
  inOrder := List.prefix_rfl
  answers _ hi := by cases hi
  first _ hi := by cases hi
  next := .nil
  passes _ hi := by cases hi
  whole _ := rfl
  decides := rfl

/-- A handler that passes the call on, and those behind it. -/
theorem pass (hrun : handler selector entry state = (.pass passed, left))
    (h : Ran selector handlers passed left invocations verdict) :
    Ran selector (handler :: handlers) entry state
      (⟨handler, selector, entry, state, .pass passed, left⟩ :: invocations) verdict where
  inOrder := by
    rw [List.map_cons]
    exact List.cons_prefix_cons.mpr ⟨rfl, h.inOrder⟩
  answers i hi := by
    rcases List.mem_cons.mp hi with rfl | hi
    · exact ⟨rfl, hrun⟩
    · exact h.answers i hi
  first i hi := by
    obtain rfl := Option.some.inj hi
    exact ⟨rfl, rfl⟩
  next := by
    refine List.isChain_cons.mpr ⟨fun i hi => ?_, h.next⟩
    obtain ⟨hentry, hfound⟩ := h.first i hi
    exact ⟨by rw [hentry], hfound.symm⟩
  passes i hi := by
    cases invocations with
    | nil => cases hi
    | cons first rest =>
      rw [List.dropLast_cons_cons] at hi
      rcases List.mem_cons.mp hi with rfl | hi
      · exact ⟨passed, rfl⟩
      · exact h.passes i hi
  whole hall := by
    rw [List.map_cons, h.whole fun i hi => hall i (List.mem_cons_of_mem _ hi)]
  decides := by
    cases invocations with
    | nil => exact h.decides
    | cons first rest => exact h.decides

/-- A handler that does not pass the call on is the last one. -/
theorem stop (hrun : handler selector entry state = (verdict, left))
    (hstop : ∀ passed, verdict ≠ .pass passed) :
    Ran selector (handler :: handlers) entry state
      [⟨handler, selector, entry, state, verdict, left⟩] verdict where
  inOrder := List.cons_prefix_cons.mpr ⟨rfl, List.nil_prefix⟩
  answers i hi := by
    obtain rfl := List.mem_singleton.mp hi
    exact ⟨rfl, hrun⟩
  first i hi := by
    obtain rfl := Option.some.inj hi
    exact ⟨rfl, rfl⟩
  next := .singleton _
  passes _ hi := by cases hi
  whole hall := by
    obtain ⟨passed, h⟩ := hall _ List.mem_cons_self
    exact absurd h (hstop passed)
  decides := rfl

end Ran

theorem ran_invocations (selector : Selector) (handlers : List (Handler σ)) (entry : Entry)
    (state : σ) :
    Ran selector handlers entry state (Chain.invocations selector handlers entry state)
      (Chain.run selector handlers entry state).1 := by
  induction handlers generalizing entry state with
  | nil => exact .nil
  | cons handler handlers ih =>
    rw [Chain.run, Chain.invocations]
    rcases hrun : handler selector entry state with ⟨verdict, left⟩
    cases verdict with
    | pass passed => exact .pass hrun (ih passed left)
    | suppress => exact .stop hrun fun _ h => by cases h
    | fail message => exact .stop hrun fun _ h => by cases h

namespace Logger

theorem evaluate_noted (logger : Logger σ) (selector : Selector) (arguments : List Json) (state : σ)
    (notes : List (Invocation σ)) :
    logger.noted.evaluate selector arguments (state, notes) =
      ((logger.evaluate selector arguments state).1, (logger.evaluate selector arguments state).2,
        notes ++ Chain.invocations selector (logger.chain.handlers selector)
          (Chain.start logger.sink selector arguments) state) := by
  have handlers : logger.noted.chain.handlers selector =
      (logger.chain.handlers selector).map DeferredLog.noted := by
    rw [Chain.handlers, Chain.handlers, List.map_append]
    cases selector.modifier with
    | none => exact congrArg (· ++ []) (Plugin.filterMap_noted ..)
    | some modifier => exact congrArg₂ _ (Plugin.filterMap_noted ..) (Plugin.filterMap_noted ..)
  rw [evaluate, evaluate, Chain.evaluate_eq_run, Chain.evaluate_eq_run, handlers, Chain.run_noted]
  rfl

/-- **A call runs a prefix of one fixed chain of handlers.** As many handlers as `Chain.length` counts
stand in a row: those that the level plugins have for the level, and behind them, if there is a
modifier, those that the modifier plugins have for it. The call starts as a call of the console method
named like the level, if the sink has it, and of `debug` if not. The handlers run one after the other, up
to the first that suppresses the call or fails, and that one or the last says what the call gives. -/
theorem evaluate_course (logger : Logger σ) (selector : Selector) (arguments : List Json)
    (state : σ) :
    (logger.chain.handlers selector).length = logger.chain.length selector ∧
      ∃ invocations verdict,
        logger.noted.evaluate selector arguments (state, []) =
          ((logger.evaluate selector arguments state).1,
            (logger.evaluate selector arguments state).2, invocations) ∧
        Ran selector (logger.chain.handlers selector)
          ⟨if logger.sink.supports selector.level then selector.level else "debug", arguments⟩ state
          invocations verdict ∧
        (logger.evaluate selector arguments state).1 =
          match verdict with
          | .pass entry => .ok (.emit entry)
          | .suppress => .ok .noop
          | .fail message => .error (.plugin message) := by
  refine ⟨logger.chain.length_handlers selector, _, _, logger.evaluate_noted selector arguments state [],
    ran_invocations .., ?_⟩
  rw [evaluate, Chain.evaluate_eq_run]
  exact Verdict.action.eq_def _

end Logger

end DeferredLog
