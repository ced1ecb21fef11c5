import Mathlib.Data.List.TakeDrop
import Mathlib.Data.List.TakeWhile
import DeferredLog.Logger.Builder
import DeferredLog.Proofs.Logger.Course
import DeferredLog.Proofs.Logger.Names

/-!
# The ways to call a logger

A logger can be called by names, from one of its levels or from a path, and all of these ways lead to the
same call of its plugins. They lead there for each level and modifier that some plugin handles and for no
others.

* `Builder.levels_after`, `Builder.modifiers_after`: the plugins that a logger is built from.
* `Logger.Routes`: what the ways to call a logger have in common.
* `Builder.routes_build`: that they do, for every logger that can be built.
-/

namespace DeferredLog

variable {σ : Type}

/-! ## Building -/

namespace Builder

/-- What a builder can be given. -/
inductive Gift (σ : Type) where
  | levelPlugin (plugin : Plugin σ)
  | modifierPlugin (plugin : Plugin σ)
  | levelPlugins (plugins : List (Plugin σ))
  | modifierPlugins (plugins : List (Plugin σ))
  | sink (sink : Sink)

namespace Gift

/-- The plugins for levels in it. -/
def levels : Gift σ → List (Plugin σ)
  | .levelPlugin plugin => [plugin]
  | .levelPlugins plugins => plugins
  | .modifierPlugin _ | .modifierPlugins _ | .sink _ => []

/-- The plugins for modifiers in it. -/
def modifiers : Gift σ → List (Plugin σ)
  | .modifierPlugin plugin => [plugin]
  | .modifierPlugins plugins => plugins
  | .levelPlugin _ | .levelPlugins _ | .sink _ => []

end Gift

/-- The builder that has been given one thing more. -/
def give (builder : Builder σ) : Gift σ → Builder σ
  | .levelPlugin plugin => builder.levelPlugin plugin
  | .modifierPlugin plugin => builder.modifierPlugin plugin
  | .levelPlugins plugins => builder.levelPlugins plugins
  | .modifierPlugins plugins => builder.modifierPlugins plugins
  | .sink sink => builder.withSink sink

/-- The builder that has been given some things, one after the other. -/
def after (builder : Builder σ) (gifts : List (Gift σ)) : Builder σ :=
  gifts.foldl give builder

/-- What grows by its part of each thing given has all the parts in the end, in order. -/
theorem flatMap_after {α : Type} {whole : Builder σ → List α} {part : Gift σ → List α}
    (hgive : ∀ builder gift, whole (give builder gift) = whole builder ++ part gift)
    (builder : Builder σ) (gifts : List (Gift σ)) :
    whole (builder.after gifts) = whole builder ++ gifts.flatMap part := by
  induction gifts generalizing builder with
  | nil => exact (List.append_nil _).symm
  | cons gift gifts ih =>
    rw [after, List.foldl_cons, ← after, ih, hgive, List.flatMap_cons, List.append_assoc]

theorem levels_after (builder : Builder σ) (gifts : List (Gift σ)) :
    (builder.after gifts).levels = builder.levels ++ gifts.flatMap Gift.levels := by
  refine flatMap_after (fun builder gift => ?_) builder gifts
  cases gift with
  | levelPlugin | levelPlugins => rfl
  | modifierPlugin | modifierPlugins | sink => exact (List.append_nil _).symm

theorem modifiers_after (builder : Builder σ) (gifts : List (Gift σ)) :
    (builder.after gifts).modifiers = builder.modifiers ++ gifts.flatMap Gift.modifiers := by
  refine flatMap_after (fun builder gift => ?_) builder gifts
  cases gift with
  | modifierPlugin | modifierPlugins => rfl
  | levelPlugin | levelPlugins | sink => exact (List.append_nil _).symm

end Builder

/-! ## Paths -/

/-- The path that names a level, or a level and a modifier. -/
def Selector.path (selector : Selector) : String :=
  match selector.modifier with
  | none => selector.level
  | some modifier => selector.level ++ "." ++ modifier

namespace Logger

theorem cutAtDot_path {selector : Selector} (h : '.' ∉ selector.level.toList) :
    cutAtDot selector.path = (selector.level, selector.modifier) := by
  have hbefore : ∀ c ∈ selector.level.toList, (c != '.') = true :=
    fun c hc => bne_iff_ne.mpr fun he => h (he ▸ hc)
  obtain ⟨level, modifier⟩ := selector
  cases modifier with
  | none =>
    have htake : level.toList.takeWhile (· != '.') = level.toList :=
      List.takeWhile_eq_self_iff.mpr hbefore
    rw [Selector.path, cutAtDot, List.span_eq_takeWhile_dropWhile, htake,
      List.dropWhile_eq_nil_iff.mpr hbefore]
    simp
  | some modifier =>
    have hpath : (Selector.path ⟨level, some modifier⟩).toList =
        level.toList ++ '.' :: modifier.toList := by
      simp [Selector.path]
    rw [cutAtDot, hpath, List.span_eq_takeWhile_dropWhile, List.takeWhile_append_of_pos hbefore,
      List.dropWhile_append_of_pos hbefore]
    simp

/-! ## Ways -/

/-- The way through a level, and from there to a modifier if there is one. -/
def leaf? (logger : Logger σ) (selector : Selector) : Option Selector :=
  (logger.level? selector.level).bind fun level =>
    match selector.modifier with
    | none => some level.selector
    | some modifier => level.modifier? modifier

variable {logger : Logger σ} {selector : Selector}

theorem leaf?_of_knows (h : logger.Knows selector) : logger.leaf? selector = some selector := by
  obtain ⟨hlevel, hmodifier⟩ := h
  rw [leaf?, level?_eq_some hlevel]
  obtain ⟨level, modifier⟩ := selector
  cases modifier with
  | none => rfl
  | some m => simp [Level.modifier?, hmodifier m rfl]

theorem leaf?_of_not_knows (h : ¬ logger.Knows selector) : logger.leaf? selector = none := by
  rcases knows_cases logger selector with hknows | hlevel | ⟨hlevel, modifier, hm, hn⟩
  · exact absurd hknows h
  · rw [leaf?, level?_eq_none hlevel]
    rfl
  · rw [leaf?, level?_eq_some hlevel, hm]
    simp [Level.modifier?, hn]

/-- A path leads where its level and its modifier lead. -/
theorem get?_path (h : '.' ∉ selector.level.toList) : logger.get? selector.path = logger.leaf? selector := by
  rw [get?, cutAtDot_path h, leaf?]
  obtain ⟨level, modifier⟩ := selector
  cases modifier with
  | none => exact Option.map_eq_bind
  | some modifier => rfl

/-! ## Calls that run no handler -/

theorem vocabulary_noted (plugins : List (Plugin σ)) :
    vocabulary (plugins.map Plugin.noted) = vocabulary plugins := by
  rw [vocabulary, vocabulary, List.flatMap_map]
  simp only [Plugin.names_noted]

/-- A call by names that the logger does not have gives a fault and runs no handler. -/
theorem call_noted_of_not_knows (h : ¬ logger.Knows selector) (arguments : List Json) (state : σ)
    (notes : List (Invocation σ)) :
    logger.noted.call selector arguments (state, notes) =
      ((logger.call selector arguments state).1, state, notes) := by
  have hlevels : logger.noted.levelNames = logger.levelNames := vocabulary_noted _
  have hmodifiers : logger.noted.modifierNames = logger.modifierNames := vocabulary_noted _
  rcases knows_cases logger selector with hknows | hlevel | ⟨hlevel, modifier, hm, hn⟩
  · exact absurd hknows h
  · rw [call_unknownLevel hlevel, call_unknownLevel (hlevels ▸ hlevel)]
  · rw [call_unknownModifier hlevel hm hn,
      call_unknownModifier (hlevels ▸ hlevel) hm (hmodifiers ▸ hn)]

end Logger

/-! ## Agreement -/

/-- Whether one of some plugins handles a name. -/
def Declares (plugins : List (Plugin σ)) (name : String) : Prop :=
  ∃ plugin ∈ plugins, plugin.handles name = true

/-- Whether some plugins handle the level and the modifier that a logger is called by. -/
def Declared (levels modifiers : List (Plugin σ)) (selector : Selector) : Prop :=
  Declares levels selector.level ∧ ∀ m ∈ selector.modifier, Declares modifiers m

namespace Logger

theorem mem_vocabulary_iff (name : String) (plugins : List (Plugin σ)) :
    name ∈ vocabulary plugins ↔ Declares plugins name := by
  simp only [mem_vocabulary, Declares, Plugin.handles_iff]

/-- What the ways to call a logger have in common, told its plugins for levels and for modifiers. -/
structure Routes (logger : Logger σ) (levels modifiers : List (Plugin σ)) : Prop where
  /-- The levels are the names that some plugin for levels handles, in order and each once. -/
  levelNames : logger.levelNames.Pairwise (· < ·) ∧
    ∀ name, name ∈ logger.levelNames ↔ Declares levels name
  /-- Each of them is a level, and its modifiers are the names that some plugin for modifiers handles,
  in order and each once. -/
  modifierNames : ∀ name, Declares levels name → ∃ level, logger.level? name = some level ∧
    level.name = name ∧ level.modifiers.Pairwise (· < ·) ∧
      ∀ modifier, modifier ∈ level.modifiers ↔ Declares modifiers modifier
  /-- A level is unknown exactly if no plugin handles it, whatever the modifier. -/
  unknownLevel : ∀ selector arguments state name,
    (logger.call selector arguments state).1 = .error (.unknownLevel name) ↔
      ¬ Declares levels selector.level ∧ name = selector.level
  /-- A modifier is unknown exactly if no plugin handles it, and the level is known. -/
  unknownModifier : ∀ selector arguments state modifier level,
    (logger.call selector arguments state).1 = .error (.unknownModifier modifier level) ↔
      Declares levels selector.level ∧ selector.modifier = some modifier ∧
        ¬ Declares modifiers modifier ∧ level = selector.level
  /-- Then no handler runs. -/
  silent : ∀ selector arguments state notes, ¬ Declared levels modifiers selector →
    logger.noted.call selector arguments (state, notes) =
      ((logger.call selector arguments state).1, state, notes)
  /-- Otherwise a call by names is what the plugins make of it. -/
  byNames : ∀ selector arguments state, Declared levels modifiers selector →
    logger.call selector arguments state = logger.evaluate selector arguments state
  /-- So is a call from the level. -/
  byLevel : ∀ selector arguments state, Declared levels modifiers selector →
    (logger.leaf? selector).map (logger.evaluate · arguments state) =
      some (logger.evaluate selector arguments state)
  /-- So is a call from the path, unless there is a dot in the name of the level. -/
  byPath : ∀ selector arguments state, Declared levels modifiers selector →
    '.' ∉ selector.level.toList →
      (logger.get? selector.path).map (logger.evaluate · arguments state) =
        some (logger.evaluate selector arguments state)
  /-- No other combination is found. -/
  noOther : ∀ selector, ¬ Declared levels modifiers selector → logger.leaf? selector = none
  /-- The fault of a handler is that of the call. -/
  faults : ∀ selector arguments state message, Declared levels modifiers selector →
    (logger.chain.evaluate logger.sink selector arguments state).1 = .fail message →
      (logger.call selector arguments state).1 = .error (.plugin message)

theorem routes (logger : Logger σ) : logger.Routes logger.chain.levels logger.chain.modifiers := by
  have hlevel : ∀ name, name ∈ logger.levelNames ↔ Declares logger.chain.levels name :=
    fun name => mem_vocabulary_iff name _
  have hmodifier : ∀ name, name ∈ logger.modifierNames ↔ Declares logger.chain.modifiers name :=
    fun name => mem_vocabulary_iff name _
  have hknows : ∀ selector, logger.Knows selector ↔
      Declared logger.chain.levels logger.chain.modifiers selector := by
    intro selector
    simp only [Knows, Declared, hlevel, hmodifier]
  exact {
    levelNames := ⟨sorted_vocabulary _, hlevel⟩
    modifierNames := fun name h => ⟨⟨name, logger.modifierNames⟩,
      level?_eq_some ((hlevel name).mpr h), rfl, sorted_vocabulary _, hmodifier⟩
    unknownLevel := fun selector arguments state name =>
      call_unknownLevel_iff.trans (by rw [hlevel])
    unknownModifier := fun selector arguments state modifier level =>
      call_unknownModifier_iff.trans (by rw [hlevel, hmodifier])
    silent := fun selector arguments state notes h =>
      call_noted_of_not_knows (fun hk => h ((hknows selector).mp hk)) arguments state notes
    byNames := fun selector arguments state h =>
      call_of_knows ((hknows selector).mpr h) arguments state
    byLevel := fun selector arguments state h => by
      rw [leaf?_of_knows ((hknows selector).mpr h)]
      rfl
    byPath := fun selector arguments state h hdot => by
      rw [get?_path hdot, leaf?_of_knows ((hknows selector).mpr h)]
      rfl
    noOther := fun selector h => leaf?_of_not_knows fun hk => h ((hknows selector).mp hk)
    faults := fun selector arguments state message h hfail => by
      rw [call_of_knows ((hknows selector).mpr h), evaluate_fst, hfail]
      rfl }

end Logger

namespace Builder

/-- **All ways to call a logger agree**, whatever a builder has been given for it. -/
theorem routes_build (gifts : List (Gift σ)) :
    (empty.after gifts).build.Routes (gifts.flatMap Gift.levels) (gifts.flatMap Gift.modifiers) := by
  have hlevels : (empty.after gifts).build.chain.levels = gifts.flatMap Gift.levels :=
    levels_after empty gifts
  have hmodifiers : (empty.after gifts).build.chain.modifiers = gifts.flatMap Gift.modifiers :=
    modifiers_after empty gifts
  rw [← hlevels, ← hmodifiers]
  exact Logger.routes _

end Builder

end DeferredLog
