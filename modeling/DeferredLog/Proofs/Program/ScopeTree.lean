import Mathlib.Logic.Relation
import DeferredLog.Proofs.Program.Numbering

/-!
# The tree of scopes

Scopes are opened all over the walk, each around others that are yet to come, and names are bound in them
at any time later. Still the table is a tree at every moment: scope 0 is the module, and the scope around
another one has a smaller number. So the way from a scope outwards ends at the module, and what is asked
on this way has the answer that the tree gives.

* `Program.Rooted`: the table is a tree, and the statements stand in it.
* `Program.rooted_ofOutline`: every program that is made from an outline without modules in it is one.
* `Program.Rooted.shadowWalk_eq`, `Program.Rooted.hoistingWalk_eq`: the loops over the scopes around one
  end, with the answer.
* `Program.Rooted.isShadowed_iff`: which names are bound anew.
-/

namespace DeferredLog

namespace Program

open Item (openingsAll openings_scope openingsAll_cons)

variable {program later : Program} {place : Place} {kind : ScopeKind} {parent k s : Nat}
  {names : List String} {name : String}

/-- Whether the scopes of a program are a tree with the module as its root, and its statements stand in
them. -/
structure Rooted (program : Program) : Prop where
  /-- Scope 0 is a module, and no scope is around it. -/
  module : ∃ names, program.scopes[0]? = some ⟨.module, none, names⟩
  /-- Another scope is no module, and the scope around it has a smaller number. -/
  inner : ∀ k scope, 0 < k → program.scopes[k]? = some scope →
    scope.kind ≠ .module ∧ ∃ parent < k, scope.parent = some parent
  /-- The scopes of statements are in the table. -/
  statements : ∀ s ∈ program.statements.toList, s.scope < program.scopes.size

/-! ## Construction -/

namespace Rooted

theorem empty : Rooted empty where
  module := ⟨[], rfl⟩
  inner k scope hk hscope := by
    have hlt : k < 1 := lt_size_of_getElem? hscope
    omega
  statements := nofun

theorem bind (h : Rooted program) (i : Nat) (name : String) : Rooted (program.bind i name) where
  module := by
    obtain ⟨names, hnames⟩ := h.module
    rw [getElem?_bind, hnames, Option.map_some]
    split
    · exact ⟨_, rfl⟩
    · exact ⟨_, rfl⟩
  inner k scope hk hscope := by
    rw [getElem?_bind] at hscope
    obtain ⟨old, hold, rfl⟩ := Option.map_eq_some_iff.mp hscope
    obtain ⟨hkind, parent, hlt, hparent⟩ := h.inner k old hk hold
    split
    · exact ⟨hkind, parent, hlt, hparent⟩
    · exact ⟨hkind, parent, hlt, hparent⟩
  statements s hs := by
    rw [size_bind]
    exact h.statements s hs

theorem openScope (h : Rooted program) (hkind : kind ≠ .module) (hp : parent < program.scopes.size) :
    Rooted (program.openScope kind parent) where
  module := by
    obtain ⟨names, hnames⟩ := h.module
    exact ⟨names, getElem?_openScope hnames kind parent⟩
  inner k scope hk hscope := by
    rw [Program.openScope, Array.getElem?_push] at hscope
    split at hscope
    case isTrue heq =>
      obtain rfl := Option.some.inj hscope
      exact ⟨hkind, parent, heq ▸ hp, rfl⟩
    case isFalse => exact h.inner k scope hk hscope
  statements s hs := by
    rw [Program.openScope, Array.size_push]
    exact Nat.lt_succ_of_lt (h.statements s hs)

theorem record (h : Rooted program) (trees : List Tree) (hs : s < program.scopes.size) :
    Rooted (program.record trees s) where
  module := h.module
  inner := h.inner
  statements t ht := by
    simp only [Program.record, Array.toList_push, List.mem_append, List.mem_singleton] at ht
    rcases ht with ht | rfl
    · exact h.statements t ht
    · exact hs

end Rooted

mutual

theorem rooted_add (program : Program) (place : Place) (item : Item) (h : Rooted program)
    (hs : place.scope < program.scopes.size) (hkinds : ∀ o ∈ item.openings, o.kind ≠ .module) :
    Rooted (program.add place item) :=
  match item with
  | .bind name => h.bind place.scope name
  | .hoist name => h.bind place.home name
  | .statement trees => h.record trees hs
  | .scope kind outside inside => by
    rw [openings_scope, List.forall_mem_cons, List.forall_mem_append] at hkinds
    obtain ⟨hkind, houtside, hinside⟩ := hkinds
    have hopened := size_openScope program kind place.scope
    have hsize := size_addAll (program.openScope kind place.scope) place outside
    refine rooted_addAll _ (place.within kind program.scopes.size) inside ?_ ?_ hinside
    · exact rooted_addAll _ place outside (h.openScope hkind hs) (by omega) houtside
    · show program.scopes.size < _
      omega

/-- **What is added to a tree of scopes at a place in it leaves it one.** -/
theorem rooted_addAll (program : Program) (place : Place) (items : List Item) (h : Rooted program)
    (hs : place.scope < program.scopes.size) (hkinds : ∀ o ∈ openingsAll items, o.kind ≠ .module) :
    Rooted (program.addAll place items) :=
  match items with
  | [] => h
  | item :: items => by
    rw [openingsAll_cons, List.forall_mem_append] at hkinds
    have hsize := size_add program place item
    exact rooted_addAll _ place items (rooted_add program place item h hs hkinds.1) (by omega) hkinds.2

end

theorem rooted_ofOutline {items : List Item} (hkinds : ∀ o ∈ openingsAll items, o.kind ≠ .module) :
    Rooted (ofOutline items) :=
  rooted_addAll _ _ items .empty (by decide) hkinds

/-! ## The way to the module -/

/-- Whether a scope is the next one around another. -/
def Within (program : Program) (child parent : Nat) : Prop :=
  ∃ scope, program.scopes[child]? = some scope ∧ scope.parent = some parent

/-- Whether a scope is another one or around it. -/
def Around (program : Program) : Nat → Nat → Prop :=
  Relation.ReflTransGen program.Within

/-- Whether the scope with a number binds a name. -/
def BindsName (program : Program) (k : Nat) (name : String) : Prop :=
  ∃ scope, program.scopes[k]? = some scope ∧ name ∈ scope.names

/-- Whether the scope with a number is that of a function. -/
def isFunction (program : Program) (k : Nat) : Bool :=
  (program.scopes[k]?).any (·.kind = .function)

/-- The nearest function around a scope, or the module if there is none. -/
def home (program : Program) (s : Nat) : Nat :=
  ((program.ancestors s).find? program.isFunction).getD 0

/-- The loop that asks whether a name is bound anew: from scope to scope until one that is not the module
binds the name, or until there is none. It gives nothing if it has not ended after so many rounds. -/
def shadowWalk (program : Program) (name : String) : Nat → Option Nat → Option Bool
  | _, none => some false
  | 0, some _ => none
  | rounds + 1, some current =>
    match program.scopes[current]? with
    | none => some false
    | some scope =>
      if scope.kind ≠ .module ∧ scope.binds name then some true
      else shadowWalk program name rounds scope.parent

/-- The loop that looks for the scope of a hoisted name: from block to block until one that is not a block
or has none around it. It gives nothing if it has not ended after so many rounds. -/
def hoistingWalk (program : Program) : Nat → Nat → Option Nat
  | 0, _ => none
  | rounds + 1, current =>
    match program.scopes[current]? with
    | some ⟨.block, some parent, _⟩ => hoistingWalk program rounds parent
    | _ => some current

theorem ancestors_of_size_le (h : program.scopes.size ≤ s) : program.ancestors s = [] := by
  rw [ancestors, Array.getElem?_eq_none h]

namespace Rooted

/-- An argument about all scopes goes from the module inwards. -/
theorem induct (h : Rooted program) {motive : Nat → Prop}
    (missing : ∀ k, program.scopes[k]? = none → motive k)
    (module : ∀ names, program.scopes[0]? = some ⟨.module, none, names⟩ → motive 0)
    (inner : ∀ k kind parent names, program.scopes[k]? = some ⟨kind, some parent, names⟩ →
      kind ≠ .module → 0 < k → parent < k → motive parent → motive k) (s : Nat) : motive s := by
  induction s using Nat.strongRecOn with
  | _ s ih =>
    cases hs : program.scopes[s]? with
    | none => exact missing s hs
    | some scope =>
      rcases Nat.eq_zero_or_pos s with rfl | hpos
      · obtain ⟨names, hnames⟩ := h.module
        exact module names hnames
      · obtain ⟨kind, around, names⟩ := scope
        obtain ⟨hkind, parent, hlt, rfl⟩ := h.inner s _ hpos hs
        exact inner s kind parent names hs hkind hpos hlt (ih parent hlt)

theorem ancestors_zero (h : Rooted program) : program.ancestors 0 = [0] := by
  obtain ⟨names, hnames⟩ := h.module
  rw [ancestors, hnames]

theorem ancestors_inner (hk : program.scopes[k]? = some ⟨kind, some parent, names⟩) (hlt : parent < k) :
    program.ancestors k = k :: program.ancestors parent := by
  rw [ancestors, hk]
  simp [hlt]

/-- The scopes around one that are listed are those around it, outside of the table just itself. -/
theorem mem_ancestors (h : Rooted program) :
    k ∈ program.ancestors s ↔ program.Around s k ∧ k < program.scopes.size := by
  induction s using h.induct with
  | missing s hs =>
    have hsize : program.scopes.size ≤ s := Array.getElem?_eq_none_iff.mp hs
    rw [ancestors_of_size_le hsize]
    refine iff_of_false List.not_mem_nil fun ⟨haround, hlt⟩ => ?_
    rcases Relation.ReflTransGen.cases_head haround with rfl | ⟨_, ⟨scope, hscope, -⟩, -⟩
    · omega
    · cases hs.symm.trans hscope
  | module names hs =>
    rw [h.ancestors_zero, List.mem_singleton]
    refine ⟨fun hk => ⟨hk ▸ .refl, hk ▸ lt_size_of_getElem? hs⟩, fun ⟨haround, _⟩ => ?_⟩
    rcases Relation.ReflTransGen.cases_head haround with rfl | ⟨_, ⟨scope, hscope, hparent⟩, -⟩
    · rfl
    · cases hs.symm.trans hscope
      cases hparent
  | inner s kind parent names hs _ _ hlt ih =>
    rw [ancestors_inner hs hlt, List.mem_cons, ih]
    constructor
    · rintro (rfl | ⟨haround, hk⟩)
      · exact ⟨.refl, lt_size_of_getElem? hs⟩
      · exact ⟨.head ⟨_, hs, rfl⟩ haround, hk⟩
    · rintro ⟨haround, hk⟩
      rcases Relation.ReflTransGen.cases_head haround with rfl | ⟨_, ⟨scope, hscope, hparent⟩, hrest⟩
      · exact .inl rfl
      · cases hs.symm.trans hscope
        cases hparent
        exact .inr ⟨hrest, hk⟩

/-- **A name is bound anew** if a scope or one around it binds it that is not scope 0. -/
theorem isShadowed_iff (h : Rooted program) :
    program.isShadowed name s = true ↔
      ∃ k, program.Around s k ∧ k ≠ 0 ∧ program.BindsName k name := by
  have hrebinds : ∀ k, program.rebinds name k = true ↔ k ≠ 0 ∧ program.BindsName k name := by
    intro k
    cases hk : program.scopes[k]? with
    | none => simp [rebinds, BindsName, hk]
    | some scope =>
      have hkind : scope.kind ≠ .module ↔ k ≠ 0 := by
        obtain ⟨names, hmodule⟩ := h.module
        constructor
        · rintro hne rfl
          cases hmodule.symm.trans hk
          exact hne rfl
        · exact fun hne => (h.inner k scope (Nat.pos_of_ne_zero hne) hk).1
      simp [rebinds, BindsName, hk, Scope.binds, hkind]
  rw [isShadowed, List.any_eq_true]
  constructor
  · rintro ⟨k, hk, hbinds⟩
    exact ⟨k, (h.mem_ancestors.mp hk).1, (hrebinds k).mp hbinds⟩
  · rintro ⟨k, hk, hne, scope, hscope, hname⟩
    exact ⟨k, h.mem_ancestors.mpr ⟨hk, lt_size_of_getElem? hscope⟩,
      (hrebinds k).mpr ⟨hne, scope, hscope, hname⟩⟩

/-- **The loop over the scopes around one ends**, with the answer whether the name is bound anew. -/
theorem shadowWalk_eq (h : Rooted program) (name : String) {rounds : Nat} (hr : s < rounds) :
    program.shadowWalk name rounds (some s) = some (program.isShadowed name s) := by
  induction s using h.induct generalizing rounds with
  | missing s hs =>
    obtain ⟨rounds, rfl⟩ := Nat.exists_eq_add_one_of_ne_zero (Nat.ne_zero_of_lt hr)
    rw [shadowWalk, hs, isShadowed, ancestors_of_size_le (Array.getElem?_eq_none_iff.mp hs)]
    rfl
  | module names hs =>
    obtain ⟨rounds, rfl⟩ := Nat.exists_eq_add_one_of_ne_zero (Nat.ne_zero_of_lt hr)
    rw [shadowWalk, hs, isShadowed, h.ancestors_zero]
    simp [rebinds, hs, shadowWalk]
  | inner s kind parent names hs hkind _ hlt ih =>
    obtain ⟨rounds, rfl⟩ := Nat.exists_eq_add_one_of_ne_zero (Nat.ne_zero_of_lt hr)
    rw [shadowWalk, hs, isShadowed_of_getElem? hs hlt]
    have hparent := ih (show parent < rounds by omega)
    by_cases hbinds : name ∈ names
    · simp [Scope.binds, hbinds, hkind]
    · simp [Scope.binds, hbinds, hparent]

theorem home_zero (h : Rooted program) : program.home 0 = 0 := by
  obtain ⟨names, hnames⟩ := h.module
  simp [home, h.ancestors_zero, isFunction, hnames]

/-- The home of a function is itself, that of a block is the home of what is around it. -/
theorem home_inner (hk : program.scopes[k]? = some ⟨kind, some parent, names⟩) (hlt : parent < k) :
    program.home k = if kind = .function then k else program.home parent := by
  rw [home, ancestors_inner hk hlt, List.find?_cons]
  by_cases hkind : kind = .function
  · simp [isFunction, hk, hkind]
  · simp [isFunction, hk, hkind, home]

/-- **The loop that looks for the scope of a hoisted name ends** at the nearest function, or at the
module. -/
theorem hoistingWalk_eq (h : Rooted program) (hs : s < program.scopes.size) {rounds : Nat}
    (hr : s < rounds) : program.hoistingWalk rounds s = some (program.home s) := by
  induction s using h.induct generalizing rounds with
  | missing s hs' => exact absurd hs (Nat.not_lt.mpr (Array.getElem?_eq_none_iff.mp hs'))
  | module names hs' =>
    obtain ⟨rounds, rfl⟩ := Nat.exists_eq_add_one_of_ne_zero (Nat.ne_zero_of_lt hr)
    rw [hoistingWalk, hs', h.home_zero]
  | inner s kind parent names hs' hkind _ hlt ih =>
    obtain ⟨rounds, rfl⟩ := Nat.exists_eq_add_one_of_ne_zero (Nat.ne_zero_of_lt hr)
    rw [hoistingWalk, hs', home_inner hs' hlt]
    cases kind with
    | module => exact absurd rfl hkind
    | function => rfl
    | block => exact ih (Nat.lt_trans hlt hs) (by omega)

/-- Outside of the table the loop ends where it starts. -/
theorem hoistingWalk_missing (hs : program.scopes.size ≤ s) (rounds : Nat) :
    program.hoistingWalk (rounds + 1) s = some s := by
  rw [hoistingWalk, Array.getElem?_eq_none hs]

end Rooted

end Program

end DeferredLog
