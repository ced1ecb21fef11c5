import DeferredLog.Logger

/-!
# Building loggers

A builder collects plugins, in the order in which they are given, and a sink. Without a sink the
logger writes to the output streams.
-/

namespace DeferredLog

/-- What a logger is made of, so far. -/
structure Builder (σ : Type) where
  /-- The plugins for levels. -/
  levels : List (Plugin σ)
  /-- The plugins for modifiers. -/
  modifiers : List (Plugin σ)
  /-- Where the actions are to write, once that is told. -/
  sink : Option Sink

namespace Builder

variable {σ : Type}

/-- The builder that has been given nothing. -/
def empty : Builder σ := ⟨[], [], none⟩

/-- The builder with more plugins for levels. -/
def levelPlugins (builder : Builder σ) (plugins : List (Plugin σ)) : Builder σ :=
  { builder with levels := builder.levels ++ plugins }

/-- The builder with one more plugin for levels. -/
def levelPlugin (builder : Builder σ) (plugin : Plugin σ) : Builder σ :=
  builder.levelPlugins [plugin]

/-- The builder with more plugins for modifiers. -/
def modifierPlugins (builder : Builder σ) (plugins : List (Plugin σ)) : Builder σ :=
  { builder with modifiers := builder.modifiers ++ plugins }

/-- The builder with one more plugin for modifiers. -/
def modifierPlugin (builder : Builder σ) (plugin : Plugin σ) : Builder σ :=
  builder.modifierPlugins [plugin]

/-- The builder with a sink in place of the one it had. -/
def withSink (builder : Builder σ) (sink : Sink) : Builder σ :=
  { builder with sink := some sink }

/-- The logger. -/
def build (builder : Builder σ) : Logger σ :=
  ⟨⟨builder.levels, builder.modifiers⟩, builder.sink.getD .stdio⟩

end Builder

end DeferredLog
