import Mathlib.Data.String.Basic
import DeferredLog.Logger

/-!
# The names of a logger

The names that some plugins handle are in order and each there once, whatever the plugins have in common.
A logger is called by names only if it has them; then the call is what the plugins make of it.

* `Logger.sorted_vocabulary`: the names are in order.
* `Logger.Knows`: a logger has the level and the modifier that it is called by.
* `Logger.call_of_knows`, `Logger.call_unknownLevel`, `Logger.call_unknownModifier`: a call by names.
-/

namespace DeferredLog

variable {σ : Type}

theorem Plugin.handles_iff (plugin : Plugin σ) (name : String) :
    plugin.handles name = true ↔ name ∈ plugin.names := by
  rw [handles, handler?, names, List.lookup_isSome_iff, List.mem_map]
  simp

namespace Logger

/-! ## Vocabulary -/

theorem sorted_insertName (name : String) {names : List String} (h : names.Pairwise (· < ·)) :
    (insertName name names).Pairwise (· < ·) := by
  induction names with
  | nil => exact List.pairwise_singleton ..
  | cons other rest ih =>
    obtain ⟨hother, hrest⟩ := List.pairwise_cons.mp h
    rw [insertName]
    split
    · exact h
    · rename_i hne
      split
      · rename_i hlt
        refine List.pairwise_cons.mpr ⟨fun x hx => ?_, h⟩
        rcases List.mem_cons.mp hx with rfl | hx
        · exact hlt
        · exact hlt.trans (hother x hx)
      · rename_i hle
        refine List.pairwise_cons.mpr ⟨fun x hx => ?_, ih hrest⟩
        rcases (mem_insertName ..).mp hx with rfl | hx
        · exact lt_of_le_of_ne (not_lt.mp hle) (Ne.symm hne)
        · exact hother x hx

theorem sorted_vocabulary (plugins : List (Plugin σ)) : (vocabulary plugins).Pairwise (· < ·) := by
  rw [vocabulary]
  induction plugins.flatMap (·.names) with
  | nil => exact .nil
  | cons name names ih => exact sorted_insertName name ih

/-! ## Calls by names -/

/-- Whether a logger has the level and the modifier that it is called by. -/
def Knows (logger : Logger σ) (selector : Selector) : Prop :=
  selector.level ∈ logger.levelNames ∧ ∀ m ∈ selector.modifier, m ∈ logger.modifierNames

variable {logger : Logger σ} {selector : Selector}

theorem level?_eq_some {name : String} (h : name ∈ logger.levelNames) :
    logger.level? name = some ⟨name, logger.modifierNames⟩ :=
  if_pos (List.contains_iff_mem.mpr h)

theorem level?_eq_none {name : String} (h : name ∉ logger.levelNames) : logger.level? name = none :=
  if_neg fun hc => h (List.contains_iff_mem.mp hc)

theorem call_of_knows (h : logger.Knows selector) (arguments : List Json) (state : σ) :
    logger.call selector arguments state = logger.evaluate selector arguments state := by
  obtain ⟨hlevel, hmodifier⟩ := h
  rw [call, level?_eq_some hlevel]
  obtain ⟨level, modifier⟩ := selector
  cases modifier with
  | none => rfl
  | some m => simp [Level.modifier?, hmodifier m rfl]

theorem call_unknownLevel (h : selector.level ∉ logger.levelNames) (arguments : List Json)
    (state : σ) :
    logger.call selector arguments state = (.error (.unknownLevel selector.level), state) := by
  rw [call, level?_eq_none h]

theorem call_unknownModifier {modifier : String} (h : selector.level ∈ logger.levelNames)
    (hm : selector.modifier = some modifier) (hn : modifier ∉ logger.modifierNames)
    (arguments : List Json) (state : σ) :
    logger.call selector arguments state =
      (.error (.unknownModifier modifier selector.level), state) := by
  rw [call, level?_eq_some h, hm]
  simp [Level.modifier?, hn]

/-- A call by names finds both names, misses the level, or misses the modifier. -/
theorem knows_cases (logger : Logger σ) (selector : Selector) :
    logger.Knows selector ∨ selector.level ∉ logger.levelNames ∨
      selector.level ∈ logger.levelNames ∧
        ∃ modifier, selector.modifier = some modifier ∧ modifier ∉ logger.modifierNames := by
  by_cases hlevel : selector.level ∈ logger.levelNames
  · by_cases hmodifier : ∀ m ∈ selector.modifier, m ∈ logger.modifierNames
    · exact .inl ⟨hlevel, hmodifier⟩
    · simp only [not_forall] at hmodifier
      obtain ⟨modifier, hm, hn⟩ := hmodifier
      exact .inr (.inr ⟨hlevel, modifier, hm, hn⟩)
  · exact .inr (.inl hlevel)

/-- A call that gives an action is one of names that the logger has. -/
theorem knows_of_call {arguments : List Json} {state : σ} {action : Action}
    (h : (logger.call selector arguments state).1 = .ok action) : logger.Knows selector := by
  rcases knows_cases logger selector with hknows | hlevel | ⟨hlevel, modifier, hm, hn⟩
  · exact hknows
  · rw [call_unknownLevel hlevel] at h
    cases h
  · rw [call_unknownModifier hlevel hm hn] at h
    cases h

theorem evaluate_fst (logger : Logger σ) (selector : Selector) (arguments : List Json) (state : σ) :
    (logger.evaluate selector arguments state).1 =
      (logger.chain.evaluate logger.sink selector arguments state).1.action := rfl

/-- The only faults that the plugins give are those of handlers. -/
theorem evaluate_error {arguments : List Json} {state : σ} {fault : LoggerFault}
    (h : (logger.evaluate selector arguments state).1 = .error fault) :
    ∃ message, fault = .plugin message := by
  rw [evaluate_fst] at h
  cases hverdict : (logger.chain.evaluate logger.sink selector arguments state).1 with
  | pass | suppress =>
    rw [hverdict] at h
    cases h
  | fail message =>
    rw [hverdict] at h
    exact ⟨message, (Except.error.inj h).symm⟩

theorem call_unknownLevel_iff {arguments : List Json} {state : σ} {name : String} :
    (logger.call selector arguments state).1 = .error (.unknownLevel name) ↔
      selector.level ∉ logger.levelNames ∧ name = selector.level := by
  rcases knows_cases logger selector with hknows | hlevel | ⟨hlevel, modifier, hm, hn⟩
  · rw [call_of_knows hknows]
    refine ⟨fun h => ?_, fun ⟨hlevel, _⟩ => absurd hknows.1 hlevel⟩
    obtain ⟨message, h⟩ := evaluate_error h
    cases h
  · rw [call_unknownLevel hlevel]
    simp [hlevel, eq_comm]
  · rw [call_unknownModifier hlevel hm hn]
    simp [hlevel]

theorem call_unknownModifier_iff {arguments : List Json} {state : σ} {modifier level : String} :
    (logger.call selector arguments state).1 = .error (.unknownModifier modifier level) ↔
      selector.level ∈ logger.levelNames ∧ selector.modifier = some modifier ∧
        modifier ∉ logger.modifierNames ∧ level = selector.level := by
  rcases knows_cases logger selector with hknows | hlevel | ⟨hlevel, other, hm, hn⟩
  · rw [call_of_knows hknows]
    refine ⟨fun h => ?_, fun ⟨_, hm, hn, _⟩ => absurd (hknows.2 modifier hm) hn⟩
    obtain ⟨message, h⟩ := evaluate_error h
    cases h
  · rw [call_unknownLevel hlevel]
    simp [hlevel]
  · rw [call_unknownModifier hlevel hm hn, hm]
    constructor
    · intro h
      cases h
      exact ⟨hlevel, rfl, hn, rfl⟩
    · rintro ⟨-, h, -, rfl⟩
      cases h
      rfl

end Logger

end DeferredLog
