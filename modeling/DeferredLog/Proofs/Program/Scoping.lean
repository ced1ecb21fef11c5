import Mathlib.Tactic.Tauto
import DeferredLog.Proofs.Program.Layout

/-!
# Lexical scoping of an outline

The scope table of a program is filled while the outline is walked, and a name can be bound long after
the statements that see it. In the end the table says what the nesting of the outline says: a statement
sees the names that the scopes around it bind, wherever in these scopes they are bound.

* `Item.insides`: for each statement, the names bound by the scopes around it.
* `Program.Adds`: what adding a part of an outline does to the table.
* `Program.isShadowed_ofOutline`: the names that are bound anew around each statement.
-/

namespace DeferredLog

namespace Item

mutual

/-- The names that a part of an outline binds in the scope around it. -/
def binds : Item → List String
  | .bind name => [name]
  | .hoist _ | .statement _ => []
  | .scope _ outside _ => bindsAll outside

/-- The names that an outline binds in the scope around it. -/
def bindsAll : List Item → List String
  | [] => []
  | item :: items => item.binds ++ bindsAll items

end

mutual

/-- The names that a part of an outline binds in the nearest function or module around it. -/
def hoists : Item → List String
  | .bind _ | .statement _ => []
  | .hoist name => [name]
  | .scope kind outside inside =>
    hoistsAll outside ++ if kind = .block then hoistsAll inside else []

/-- The names that an outline binds in the nearest function or module around it. -/
def hoistsAll : List Item → List String
  | [] => []
  | item :: items => item.hoists ++ hoistsAll items

end

/-- The names that a scope binds anew. What a module binds does not count. -/
def rebound (kind : ScopeKind) (inside : List Item) : List String :=
  match kind with
  | .module => []
  | .function => bindsAll inside ++ hoistsAll inside
  | .block => bindsAll inside

mutual

/-- For each statement in a part of an outline, the names bound anew by the scopes of the part around
it. -/
def insides : Item → List (List String)
  | .bind _ | .hoist _ => []
  | .statement _ => [[]]
  | .scope kind outside inside =>
    insidesAll outside ++ (insidesAll inside).map (· ++ rebound kind inside)

/-- For each statement in an outline, the names bound anew by the scopes of the outline around it. -/
def insidesAll : List Item → List (List String)
  | [] => []
  | item :: items => item.insides ++ insidesAll items

end

end Item

namespace Program

open Item

variable {program program' program'' later : Program} {place : Place}

/-! ## Additions to the table -/

/-- Whether the scopes of a program from a number on are in another one as they are. -/
def Keeps (first : Nat) (program later : Program) : Prop :=
  ∀ k scope, first ≤ k → program.scopes[k]? = some scope → ∃ names,
    later.scopes[k]? = some { scope with names } ∧ ∀ name, name ∈ names ↔ name ∈ scope.names

/-- What adding a part of an outline at a place does to a program: it binds the given names in the
scope there and in the nearest function or module, and adds statements in new scopes, for each of
which the names that these bind are given. -/
structure Adds (place : Place) (binds hoists : List String) (insides : List (List String))
    (program program' : Program) : Prop where
  /-- No scope is lost. -/
  size_le : program.scopes.size ≤ program'.scopes.size
  /-- The scopes that were there get these names and no others. -/
  scopes : ∀ k scope, program.scopes[k]? = some scope → ∃ names,
    program'.scopes[k]? = some { scope with names } ∧
      ∀ name, name ∈ names ↔ name ∈ scope.names ∨ (k = place.scope ∧ name ∈ binds) ∨
        (k = place.home ∧ name ∈ hoists)
  /-- Whatever is bound later, the statements that were added see the given names and those that can
  be seen at the place. -/
  statements : ∃ added, program'.statements.toList = program.statements.toList ++ added ∧
    ∀ later, Keeps program.scopes.size program' later → ∀ name,
      added.map (fun s => later.isShadowed name s.scope) =
        insides.map fun names => names.contains name || later.isShadowed name place.scope

theorem lt_size_of_getElem? {k : Nat} {scope : Scope} (h : program.scopes[k]? = some scope) :
    k < program.scopes.size :=
  (Array.getElem?_eq_some_iff.mp h).1

/-- A name is bound anew at a scope if that scope binds it or it is bound anew around the scope. -/
theorem isShadowed_of_getElem? {k parent : Nat} {kind : ScopeKind} {names : List String}
    (h : program.scopes[k]? = some ⟨kind, some parent, names⟩) (hlt : parent < k) (name : String) :
    program.isShadowed name k =
      (kind != .module && names.contains name || program.isShadowed name parent) := by
  have hancestors : program.ancestors k = k :: program.ancestors parent := by
    rw [ancestors, h]
    simp [hlt]
  have hrebinds : program.rebinds name k = (kind != .module && names.contains name) := by
    rw [rebinds, h]
    rfl
  rw [isShadowed, hancestors, List.any_cons, hrebinds, isShadowed]

theorem Adds.nil (place : Place) (program : Program) : Adds place [] [] [] program program where
  size_le := Nat.le_refl _
  scopes _ scope h := ⟨scope.names, h, by simp⟩
  statements := ⟨[], by simp, by simp⟩

/-- Additions that follow each other. -/
theorem Adds.trans {b b' h h' : List String} {i i' : List (List String)}
    (hs : place.scope < program.scopes.size) (hh : place.home < program.scopes.size)
    (h₁ : Adds place b h i program program') (h₂ : Adds place b' h' i' program' program'') :
    Adds place (b ++ b') (h ++ h') (i ++ i') program program'' where
  size_le := Nat.le_trans h₁.size_le h₂.size_le
  scopes k scope hk := by
    obtain ⟨names, hk, hnames⟩ := h₁.scopes k scope hk
    obtain ⟨names', hk, hnames'⟩ := h₂.scopes k _ hk
    refine ⟨names', hk, fun name => ?_⟩
    rw [hnames', hnames]
    simp only [List.mem_append]
    tauto
  statements := by
    obtain ⟨added, heq, hsees⟩ := h₁.statements
    obtain ⟨added', heq', hsees'⟩ := h₂.statements
    refine ⟨added ++ added', by rw [heq', heq, List.append_assoc], fun later hkeeps name => ?_⟩
    rw [List.map_append, List.map_append, hsees', hsees]
    · -- The second addition binds no name in the scopes that the first one opened.
      intro k scope hle hk
      obtain ⟨names, hk, hnames⟩ := h₂.scopes k scope hk
      obtain ⟨names', hk, hnames'⟩ := hkeeps k _ hle hk
      refine ⟨names', hk, fun name => ?_⟩
      rw [hnames', hnames]
      have : k ≠ place.scope := by omega
      have : k ≠ place.home := by omega
      tauto
    · exact fun k scope hle => hkeeps k scope (Nat.le_trans h₁.size_le hle)

theorem getElem?_bind (program : Program) (i k : Nat) (name : String) :
    (program.bind i name).scopes[k]? =
      (program.scopes[k]?).map fun s => if i = k then { s with names := name :: s.names } else s := by
  simp only [bind, Array.getElem?_modify]
  split
  · rfl
  · simp

theorem size_bind (program : Program) (i : Nat) (name : String) :
    (program.bind i name).scopes.size = program.scopes.size := by
  simp [bind]

theorem adds_bind (program : Program) (place : Place) (name : String) :
    Adds place [name] [] [] program (program.bind place.scope name) where
  size_le := Nat.le_of_eq (size_bind ..).symm
  scopes k scope hk := by
    rw [getElem?_bind, hk]
    by_cases he : place.scope = k
    · refine ⟨name :: scope.names, by simp [he], fun other => ?_⟩
      simp only [List.mem_cons, List.not_mem_nil, or_false, and_false, he, true_and]
      tauto
    · exact ⟨scope.names, by simp [he], by simp [Ne.symm he]⟩
  statements := ⟨[], by simp [bind], by simp⟩

theorem adds_hoist (program : Program) (place : Place) (name : String) :
    Adds place [] [name] [] program (program.bind place.home name) where
  size_le := Nat.le_of_eq (size_bind ..).symm
  scopes k scope hk := by
    rw [getElem?_bind, hk]
    by_cases he : place.home = k
    · refine ⟨name :: scope.names, by simp [he], fun other => ?_⟩
      simp only [List.mem_cons, List.not_mem_nil, or_false, and_false, he, true_and, false_or]
      tauto
    · exact ⟨scope.names, by simp [he], by simp [Ne.symm he]⟩
  statements := ⟨[], by simp [bind], by simp⟩

theorem adds_record (program : Program) (place : Place) (trees : List Tree) :
    Adds place [] [] [[]] program (program.record trees place.scope) where
  size_le := Nat.le_refl _
  scopes _ scope h := ⟨scope.names, h, by simp⟩
  statements := ⟨[⟨program.statements.size, trees, place.scope⟩], by simp [record], by simp⟩

theorem getElem?_openScope {k : Nat} {scope : Scope} (h : program.scopes[k]? = some scope)
    (kind : ScopeKind) (parent : Nat) :
    (program.openScope kind parent).scopes[k]? = some scope := by
  have hlt := lt_size_of_getElem? h
  rw [openScope, Array.getElem?_push_lt hlt]
  rwa [Array.getElem?_eq_getElem hlt] at h

theorem size_openScope (program : Program) (kind : ScopeKind) (parent : Nat) :
    (program.openScope kind parent).scopes.size = program.scopes.size + 1 := by
  simp [openScope]

theorem getElem?_openScope_size (program : Program) (kind : ScopeKind) (parent : Nat) :
    (program.openScope kind parent).scopes[program.scopes.size]? = some ⟨kind, some parent, []⟩ := by
  simp [openScope]

/-- The place inside a new scope is in every table that has that scope. -/
theorem Place.within_lt (place : Place) (kind : ScopeKind) {n m : Nat} (hh : place.home < n) (h : n < m) :
    (place.within kind n).scope < m ∧ (place.within kind n).home < m := by
  refine ⟨h, ?_⟩
  show (if kind = .block then place.home else n) < m
  split
  · exact Nat.lt_trans hh h
  · exact h

/-- A scope, with what is outside of it and what is inside. -/
theorem adds_scope {kind : ScopeKind} {outside inside : List Item}
    (hs : place.scope < program.scopes.size) (hh : place.home < program.scopes.size)
    (h₁ : Adds place (bindsAll outside) (hoistsAll outside) (insidesAll outside)
      (program.openScope kind place.scope) program')
    (h₂ : Adds (place.within kind program.scopes.size) (bindsAll inside) (hoistsAll inside)
      (insidesAll inside) program' program'') :
    Adds place (Item.scope kind outside inside).binds (Item.scope kind outside inside).hoists
      (Item.scope kind outside inside).insides program program'' := by
  have hsize := size_openScope program kind place.scope
  have hle := h₁.size_le
  have hhome : (place.within kind program.scopes.size).home =
      if kind = .block then place.home else program.scopes.size := rfl
  refine ⟨by have := h₂.size_le; omega, fun k scope hk => ?_, ?_⟩
  · have hlt := lt_size_of_getElem? hk
    obtain ⟨names, hk, hnames⟩ := h₁.scopes k scope (getElem?_openScope hk kind _)
    obtain ⟨names', hk, hnames'⟩ := h₂.scopes k _ hk
    refine ⟨names', hk, fun name => ?_⟩
    have hscope : k ≠ (place.within kind program.scopes.size).scope := Nat.ne_of_lt hlt
    rw [hnames', hnames, hhome, Item.binds, Item.hoists]
    by_cases hb : kind = .block
    · simp only [hb, if_true, List.mem_append]
      tauto
    · have : k ≠ program.scopes.size := Nat.ne_of_lt hlt
      simp only [hb, if_false, List.append_nil, hscope, this, false_and, or_false]
  · obtain ⟨added, heq, hsees⟩ := h₁.statements
    obtain ⟨added', heq', hsees'⟩ := h₂.statements
    refine ⟨added ++ added', by rw [heq', heq, List.append_assoc]; rfl, fun later hkeeps name => ?_⟩
    -- The new scope binds what is inside of it.
    obtain ⟨names, hk, hnames⟩ := h₁.scopes _ _ (getElem?_openScope_size program kind place.scope)
    obtain ⟨names', hk, hnames'⟩ := h₂.scopes _ _ hk
    obtain ⟨names'', hk, hnames''⟩ := hkeeps _ _ (Nat.le_refl _) hk
    have hnew := isShadowed_of_getElem? hk hs name
    have hrebound : (kind != .module && names''.contains name) = (rebound kind inside).contains name := by
      have hmem : name ∈ names'' ↔ name ∈ bindsAll inside ∨
          (program.scopes.size = (place.within kind program.scopes.size).home ∧
            name ∈ hoistsAll inside) := by
        rw [hnames'', hnames', hnames]
        have h₁ : program.scopes.size ≠ place.scope := by omega
        have h₂ : program.scopes.size ≠ place.home := by omega
        have h₃ : program.scopes.size = (place.within kind program.scopes.size).scope := rfl
        simp [h₁, h₂, ← h₃]
      rw [Bool.eq_iff_iff]
      simp only [Bool.and_eq_true, bne_iff_ne, List.contains_iff_mem, hmem, hhome]
      cases kind
      · simp [rebound]
      · simp [rebound]
      · have : program.scopes.size ≠ place.home := by omega
        simp [rebound, this]
    rw [List.map_append, hsees later ?_ name, hsees' later ?_ name]
    · rw [Item.insides, List.map_append, List.map_map]
      refine congrArg (_ ++ ·) (List.map_congr_left fun seen _ => ?_)
      show (seen.contains name || later.isShadowed name program.scopes.size) = _
      rw [hnew, hrebound, Function.comp_apply, List.contains_append, Bool.or_assoc]
    · exact fun k scope hle' => hkeeps k scope (by omega)
    · -- What is inside binds no name in the scopes outside of it.
      intro k scope hle' hk
      obtain ⟨names, hk, hnames⟩ := h₂.scopes k scope hk
      obtain ⟨names', hk, hnames'⟩ := hkeeps k _ (by omega) hk
      refine ⟨names', hk, fun name => ?_⟩
      have hscope : k ≠ (place.within kind program.scopes.size).scope := by
        show k ≠ program.scopes.size
        omega
      have hhome : k ≠ (place.within kind program.scopes.size).home := by
        rw [hhome]
        split <;> omega
      rw [hnames', hnames]
      simp [hscope, hhome]

/-! ## Outlines -/

mutual

theorem adds_add (program : Program) (place : Place) (item : Item)
    (hs : place.scope < program.scopes.size) (hh : place.home < program.scopes.size) :
    Adds place item.binds item.hoists item.insides program (program.add place item) :=
  match item with
  | .bind name => adds_bind program place name
  | .hoist name => adds_hoist program place name
  | .statement trees => adds_record program place trees
  | .scope kind outside inside => by
    have hsize := size_openScope program kind place.scope
    have houtside : Adds place (bindsAll outside) (hoistsAll outside) (insidesAll outside)
        (program.openScope kind place.scope) _ :=
      adds_addAll _ _ outside (by omega) (by omega)
    have hle := houtside.size_le
    have hnew : program.scopes.size <
        ((program.openScope kind place.scope).addAll place outside).scopes.size := by omega
    obtain ⟨hscope, hhome⟩ := place.within_lt kind hh hnew
    exact adds_scope hs hh houtside (adds_addAll _ _ inside hscope hhome)

theorem adds_addAll (program : Program) (place : Place) (items : List Item)
    (hs : place.scope < program.scopes.size) (hh : place.home < program.scopes.size) :
    Adds place (bindsAll items) (hoistsAll items) (insidesAll items) program
      (program.addAll place items) :=
  match items with
  | [] => .nil place program
  | item :: items => by
    have hfirst := adds_add program place item hs hh
    have hle := hfirst.size_le
    exact hfirst.trans hs hh (adds_addAll _ _ items (by omega) (by omega))

end

/-- **The names that are bound anew around each statement** are those that the scopes around it in the
outline bind. -/
theorem isShadowed_ofOutline (items : List Item) (name : String) :
    (ofOutline items).statements.toList.map (fun s => (ofOutline items).isShadowed name s.scope) =
      (insidesAll items).map (·.contains name) := by
  have hadds : Adds .top (bindsAll items) (hoistsAll items) (insidesAll items) empty
      (ofOutline items) := adds_addAll empty .top items (by decide) (by decide)
  obtain ⟨added, heq, hsees⟩ := hadds.statements
  have hkeeps : Keeps empty.scopes.size (ofOutline items) (ofOutline items) :=
    fun _ scope _ hk => ⟨scope.names, hk, fun _ => Iff.rfl⟩
  obtain ⟨names, hmodule, -⟩ := hadds.scopes 0 ⟨.module, none, []⟩ rfl
  have htop : (ofOutline items).isShadowed name 0 = false := by
    have hancestors : (ofOutline items).ancestors 0 = [0] := by
      rw [ancestors, hmodule]
    rw [isShadowed, hancestors, List.any_cons, rebinds, hmodule]
    rfl
  rw [heq, show empty.statements.toList = [] from rfl, List.nil_append, hsees _ hkeeps name]
  refine List.map_congr_left fun seen _ => ?_
  rw [show Place.top.scope = 0 from rfl, htop, Bool.or_false]

end Program

end DeferredLog
