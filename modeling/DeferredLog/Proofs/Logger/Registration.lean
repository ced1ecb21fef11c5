import Mathlib.Data.Finset.Card
import Mathlib.Data.List.Basic
import Mathlib.Data.List.Induction
import DeferredLog.Proofs.Logger.Names

/-!
# What a plugin has been told

A plugin keeps its names in the order in which they came up first, and for each the handler that came
last. So what has been registered with a plugin, in whatever order and however often, can be told from
two things alone: when a name was registered for the first time, and when for the last.

* `Plugin.Registration`: what can be registered with a plugin.
* `Plugin.FirstComers`: the names of some registrations, each once and in the order of the first one.
* `Plugin.Recalls`: what a plugin has to say of some registrations.
* `Plugin.recalls_after`: that it does say so, for all registrations.
-/

namespace DeferredLog

variable {σ : Type}

namespace Plugin

/-! ## Registrations -/

/-- What can be registered with a plugin: a handler for a name, which can fail or which cannot. -/
inductive Registration (σ : Type) where
  | on (name : String) (handler : Handler σ)
  | onUnfailing (name : String) (handler : UnfailingHandler σ)

namespace Registration

/-- The name. -/
def name : Registration σ → String
  | .on name _ | .onUnfailing name _ => name

/-- What becomes of a call, and the state that is left. -/
def answer (registration : Registration σ) (selector : Selector) (entry : Entry) (state : σ) :
    Verdict × σ :=
  match registration with
  | .on _ handler => handler selector entry state
  | .onUnfailing _ handler =>
    let (passed, left) := handler selector entry state
    (passed.elim .suppress .pass, left)

end Registration

/-- The plugin with one thing more registered. -/
def add (plugin : Plugin σ) : Registration σ → Plugin σ
  | .on name handler => plugin.on name handler
  | .onUnfailing name handler => plugin.onUnfailing name handler

/-- The plugin with some things registered, one after the other. -/
def after (plugin : Plugin σ) (registrations : List (Registration σ)) : Plugin σ :=
  registrations.foldl add plugin

/-- The names of some registrations, as often as they come up. -/
def registered (registrations : List (Registration σ)) : List String :=
  registrations.map (·.name)

theorem after_append (plugin : Plugin σ) (first second : List (Registration σ)) :
    plugin.after (first ++ second) = (plugin.after first).after second :=
  List.foldl_append

/-- Registering is putting a handler there that answers as the registration says. -/
theorem exists_add_eq_on (plugin : Plugin σ) (registration : Registration σ) :
    ∃ handler : Handler σ, plugin.add registration = plugin.on registration.name handler ∧
      ∀ selector entry state,
        handler selector entry state = registration.answer selector entry state := by
  cases registration with
  | on name handler => exact ⟨handler, rfl, fun _ _ _ => rfl⟩
  | onUnfailing name handler =>
    refine ⟨handler.toHandler, rfl, fun selector entry state => ?_⟩
    rw [UnfailingHandler.toHandler, Registration.answer]
    rcases handler selector entry state with ⟨_ | passed, left⟩ <;> rfl

/-! ## Names -/

theorem names_add (plugin : Plugin σ) (registration : Registration σ) :
    (plugin.add registration).names =
      if registration.name ∈ plugin.names then plugin.names
      else plugin.names ++ [registration.name] := by
  obtain ⟨handler, hadd, -⟩ := exists_add_eq_on plugin registration
  rw [hadd, names_on]

/-- What it means that some names are those of a longer list, each once and in the order in which they
come up there first. -/
structure FirstComers (names all : List String) : Prop where
  /-- They are the same names. -/
  mem_iff : ∀ name, name ∈ names ↔ name ∈ all
  /-- Each of them comes up before the ones behind it. -/
  inOrder : names.Pairwise fun first second => all.idxOf first < all.idxOf second

namespace FirstComers

variable {names all : List String}

theorem nil : FirstComers [] [] := ⟨fun _ => Iff.rfl, .nil⟩

theorem nodup (h : FirstComers names all) : names.Nodup :=
  h.inOrder.imp fun hlt heq => absurd (heq ▸ hlt) (Nat.lt_irrefl _)

theorem length_eq (h : FirstComers names all) : names.length = all.toFinset.card := by
  rw [← List.toFinset_card_of_nodup h.nodup]
  exact congrArg Finset.card (Finset.ext fun name => by simp [h.mem_iff])

/-- One name more stands last, unless it is there already. -/
theorem concat (h : FirstComers names all) (name : String) :
    FirstComers (if name ∈ names then names else names ++ [name]) (all ++ [name]) := by
  have hold : ∀ other ∈ names, (all ++ [name]).idxOf other = all.idxOf other :=
    fun other hother => List.idxOf_append_of_mem ((h.mem_iff other).mp hother)
  have hnames : names.Pairwise fun first second =>
      (all ++ [name]).idxOf first < (all ++ [name]).idxOf second :=
    h.inOrder.imp_of_mem fun hfirst hsecond hlt => by rwa [hold _ hfirst, hold _ hsecond]
  by_cases hname : name ∈ names
  · rw [if_pos hname]
    refine ⟨fun other => ?_, hnames⟩
    rw [List.mem_append, List.mem_singleton, ← h.mem_iff]
    exact ⟨.inl, fun hor => hor.elim id fun heq => heq ▸ hname⟩
  · rw [if_neg hname]
    refine ⟨fun other => by simp [h.mem_iff], List.pairwise_append.mpr
      ⟨hnames, List.pairwise_singleton .., fun first hfirst second hsecond => ?_⟩⟩
    obtain rfl := List.mem_singleton.mp hsecond
    calc (all ++ [second]).idxOf first
      _ = all.idxOf first := hold first hfirst
      _ < all.length := List.idxOf_lt_length_iff.mpr ((h.mem_iff first).mp hfirst)
      _ ≤ (all ++ [second]).idxOf second := by
        rw [List.idxOf_append_of_notMem fun hmem => hname ((h.mem_iff second).mpr hmem)]
        exact Nat.le_add_right ..

end FirstComers

/-- The names of a plugin are those that have been registered, each once and in the order of its first
registration. -/
theorem firstComers_after (registrations : List (Registration σ)) :
    FirstComers (empty.after registrations).names (registered registrations) := by
  induction registrations using List.reverseRecOn with
  | nil => exact .nil
  | append_singleton registrations registration ih =>
    rw [after_append, registered, List.map_append]
    show FirstComers ((empty.after registrations).add registration).names _
    rw [names_add]
    exact ih.concat registration.name

/-! ## Handlers -/

/-- A registration leaves the handler of every other name. -/
theorem handler?_add_of_ne (plugin : Plugin σ) {registration : Registration σ} {other : String}
    (h : other ≠ registration.name) :
    (plugin.add registration).handler? other = plugin.handler? other := by
  obtain ⟨handler, hadd, -⟩ := exists_add_eq_on plugin registration
  rw [hadd, handler?_on, if_neg h]

/-- A registration leaves the place of every other name. -/
theorem getElem?_names_add_of_ne (plugin : Plugin σ) {registration : Registration σ} {other : String}
    (h : other ≠ registration.name) (i : Nat) :
    (plugin.add registration).names[i]? = some other ↔ plugin.names[i]? = some other := by
  rw [names_add]
  split
  · exact Iff.rfl
  · rw [List.getElem?_append]
    split
    · exact Iff.rfl
    · rename_i hi
      have hlast : [registration.name][i - plugin.names.length]? ≠ some other := fun hsome =>
        h (List.mem_singleton.mp (List.mem_of_getElem? hsome))
      have hbehind : plugin.names[i]? ≠ some other := by
        rw [List.getElem?_eq_none (Nat.le_of_not_lt hi)]
        exact (Option.some_ne_none other).symm
      exact iff_of_false hlast hbehind

theorem handler?_after_of_notMem (plugin : Plugin σ) {registrations : List (Registration σ)}
    {name : String} (h : name ∉ registered registrations) :
    (plugin.after registrations).handler? name = plugin.handler? name := by
  induction registrations generalizing plugin with
  | nil => rfl
  | cons registration registrations ih =>
    obtain ⟨hname, hrest⟩ := not_or.mp (List.mem_cons.not.mp h)
    exact (ih (plugin.add registration) hrest).trans (handler?_add_of_ne plugin hname)

/-- The handler of a name is the one that was registered for it last. -/
theorem exists_handler?_after (plugin : Plugin σ) (earlier later : List (Registration σ))
    {registration : Registration σ} (h : registration.name ∉ registered later) :
    ∃ handler, (plugin.after (earlier ++ registration :: later)).handler? registration.name =
        some handler ∧
      ∀ selector entry state,
        handler selector entry state = registration.answer selector entry state := by
  obtain ⟨handler, hadd, hanswer⟩ := exists_add_eq_on (plugin.after earlier) registration
  refine ⟨handler, ?_, hanswer⟩
  rw [after_append]
  show (((plugin.after earlier).add registration).after later).handler? registration.name = _
  rw [handler?_after_of_notMem _ h, hadd, handler?_on, if_pos rfl]

/-! ## Recollection -/

/-- What a plugin has to say of some registrations. -/
structure Recalls (plugin : Plugin σ) (registrations : List (Registration σ)) : Prop where
  /-- Its names are those that have been registered. -/
  mem_names : ∀ name, name ∈ plugin.names ↔ name ∈ registered registrations
  /-- No name is there twice. -/
  nodup : plugin.names.Nodup
  /-- They stand in the order of their first registrations. -/
  inOrder : plugin.names.Pairwise fun first second =>
    (registered registrations).idxOf first < (registered registrations).idxOf second
  /-- The size is the number of different names. -/
  size : plugin.size = (registered registrations).toFinset.card
  /-- A name is handled exactly if it has been registered. -/
  handles : ∀ name, plugin.handles name = true ↔ name ∈ registered registrations
  /-- Its handler answers as the last registration for it says. -/
  last : ∀ earlier registration later, registrations = earlier ++ registration :: later →
    registration.name ∉ registered later →
      ∃ handler, plugin.handler? registration.name = some handler ∧
        ∀ selector entry state,
          handler selector entry state = registration.answer selector entry state
  /-- A name that has not been registered has none. -/
  missing : ∀ name, name ∉ registered registrations → plugin.handler? name = none
  /-- One more registration changes neither the handler nor the place of any other name. -/
  others : ∀ (registration : Registration σ) (other : String), other ≠ registration.name →
    (plugin.add registration).handler? other = plugin.handler? other ∧
      ∀ i : Nat, (plugin.add registration).names[i]? = some other ↔ plugin.names[i]? = some other

/-- **A plugin is a map in the order of insertion**, whatever has been registered with it and however
often. -/
theorem recalls_after (registrations : List (Registration σ)) :
    (empty.after registrations).Recalls registrations := by
  have hnames := firstComers_after registrations
  exact {
    mem_names := hnames.mem_iff
    nodup := hnames.nodup
    inOrder := hnames.inOrder
    size := by
      rw [← hnames.length_eq, names, List.length_map]
      rfl
    handles := fun name => by rw [handles_iff, hnames.mem_iff]
    last := fun earlier registration later hsplit hlater => by
      rw [hsplit]
      exact exists_handler?_after empty earlier later hlater
    missing := fun name hname => handler?_after_of_notMem empty hname
    others := fun registration other hother =>
      ⟨handler?_add_of_ne _ hother, getElem?_names_add_of_ne _ hother⟩ }

/-- A name that comes again keeps its place. -/
example (pass silence : UnfailingHandler σ) :
    (empty.after [.onUnfailing "log" pass, .onUnfailing "debug" pass,
      .onUnfailing "log" silence]).names = ["log", "debug"] := rfl

end Plugin

end DeferredLog
