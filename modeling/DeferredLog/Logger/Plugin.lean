import DeferredLog.Console.Sink

/-!
# Plugins

A plugin names the levels or the modifiers that it handles. A handler is given the console call that
a logger call has become so far, and passes one on, suppresses the call, or fails. Handlers share a
state, which they may read and change; a change stays even where the handler fails.

* `Plugin.on` registers a handler, and `Plugin.onUnfailing` one that cannot fail. A name that is there
  already gets the new one in its old place.
* `Plugin.handler?_on`: the handler last registered for a name counts, and no other name is touched.
* `Plugin.names_on`: a name that is new comes last, and one that is not leaves the names as they are.
-/

namespace DeferredLog

/-- What a logger is called by: a level, and a modifier or none. -/
structure Selector where
  /-- The level. -/
  level : String
  /-- The modifier. -/
  modifier : Option String
  deriving DecidableEq, Repr

/-- What becomes of a call. -/
inductive Verdict where
  /-- It goes on as this console call. -/
  | pass (entry : Entry)
  /-- Nothing is to be written. -/
  | suppress
  /-- A handler has failed. -/
  | fail (message : String)
  deriving Repr

/-- What a plugin does with a call. -/
abbrev Handler (σ : Type) := Selector → Entry → σ → Verdict × σ

/-- What a plugin does with a call if it cannot fail: it passes on a console call, or none. -/
abbrev UnfailingHandler (σ : Type) := Selector → Entry → σ → Option Entry × σ

/-- It as a handler. Where it passes on none, the call is suppressed. -/
def UnfailingHandler.toHandler {σ : Type} (handler : UnfailingHandler σ) : Handler σ :=
  fun selector entry state =>
    match handler selector entry state with
    | (some passed, left) => (.pass passed, left)
    | (none, left) => (.suppress, left)

/-- Handlers by name, in the order in which the names came up. -/
structure Plugin (σ : Type) where
  /-- The names with their handlers. -/
  handlers : List (String × Handler σ)

namespace Plugin

variable {σ : Type}

/-- The plugin that handles nothing. -/
def empty : Plugin σ := ⟨[]⟩

/-- Puts a handler in the place of the one with its name, or at the end. -/
def register (name : String) (handler : Handler σ) :
    List (String × Handler σ) → List (String × Handler σ)
  | [] => [(name, handler)]
  | (other, old) :: rest =>
    if other = name then (name, handler) :: rest else (other, old) :: register name handler rest

/-- The plugin with a handler for a name. -/
def on (plugin : Plugin σ) (name : String) (handler : Handler σ) : Plugin σ :=
  ⟨register name handler plugin.handlers⟩

/-- The plugin with a handler for a name that cannot fail. -/
def onUnfailing (plugin : Plugin σ) (name : String) (handler : UnfailingHandler σ) : Plugin σ :=
  plugin.on name handler.toHandler

/-- The handler for a name. -/
def handler? (plugin : Plugin σ) (name : String) : Option (Handler σ) :=
  plugin.handlers.lookup name

/-- Whether a name is handled. -/
def handles (plugin : Plugin σ) (name : String) : Bool :=
  (plugin.handler? name).isSome

/-- The names that are handled. -/
def names (plugin : Plugin σ) : List String :=
  plugin.handlers.map (·.1)

/-- The number of names that are handled. -/
def size (plugin : Plugin σ) : Nat :=
  plugin.handlers.length

/-- Texts between quotes, with commas between them. -/
def quoted (texts : List String) : String :=
  "[" ++ ", ".intercalate (texts.map Text.quote) ++ "]"

/-- The debugging view of a plugin. -/
def shown (plugin : Plugin σ) : String :=
  "Plugin \x7b names: " ++ quoted plugin.names ++ " \x7d"

theorem lookup_register (name other : String) (handler : Handler σ)
    (handlers : List (String × Handler σ)) :
    (register name handler handlers).lookup other =
      if other = name then some handler else handlers.lookup other := by
  induction handlers with
  | nil =>
    by_cases h : other = name
    · simp [register, h]
    · simp [register, h, List.lookup_cons, beq_false_of_ne h]
  | cons head rest ih =>
    obtain ⟨first, old⟩ := head
    rw [register]
    by_cases hfirst : first = name
    · subst hfirst
      by_cases h : other = first
      · simp [h]
      · simp [List.lookup_cons, h, beq_false_of_ne h]
    · rw [if_neg hfirst, List.lookup_cons, List.lookup_cons, ih]
      by_cases h : other = first
      · subst h
        simp [hfirst]
      · simp [beq_false_of_ne h]

theorem handler?_on (plugin : Plugin σ) (name other : String) (handler : Handler σ) :
    (plugin.on name handler).handler? other =
      if other = name then some handler else plugin.handler? other :=
  lookup_register name other handler plugin.handlers

theorem map_register (name : String) (handler : Handler σ) (handlers : List (String × Handler σ)) :
    (register name handler handlers).map (·.1) =
      if name ∈ handlers.map (·.1) then handlers.map (·.1) else handlers.map (·.1) ++ [name] := by
  induction handlers with
  | nil => rfl
  | cons head rest ih =>
    obtain ⟨first, old⟩ := head
    rw [register]
    by_cases hfirst : first = name
    · simp [hfirst]
    · rw [if_neg hfirst, List.map_cons, ih]
      by_cases hrest : name ∈ rest.map (·.1)
      · simp [hrest]
      · simp [hrest, Ne.symm hfirst]

theorem names_on (plugin : Plugin σ) (name : String) (handler : Handler σ) :
    (plugin.on name handler).names =
      if name ∈ plugin.names then plugin.names else plugin.names ++ [name] :=
  map_register name handler plugin.handlers

end Plugin

end DeferredLog
