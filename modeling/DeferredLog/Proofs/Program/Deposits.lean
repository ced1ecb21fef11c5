import DeferredLog.Proofs.Program.ScopeTree

/-!
# What an outline leaves in a program

A name that is hoisted is bound far from where it stands, in a scope that was opened long before. So what
an outline leaves in a program is listed as it stands there, with the scope around it: the scopes that it
opens, its statements, and the names that it hoists. All of it is in the program in the end, whatever is
added later.

* `Item.depositsAll`: what an outline leaves, with the numbers of the scopes around.
* `Program.Holds`: whether a program has it. A hoisted name is bound in the home of the scope around it.
* `Program.holds_ofOutline`: the program of an outline has all of it.
-/

namespace DeferredLog

/-- What is left in a program. -/
inductive Deposit where
  /-- A scope with a number, and the scope around it. -/
  | scope (number : Nat) (kind : ScopeKind) (parent : Nat)
  /-- An expression statement, and the scope around it. -/
  | statement (trees : List Tree) (scope : Nat)
  /-- A name to be bound in the nearest function or module, and the scope around it. -/
  | hoist (name : String) (scope : Nat)

namespace Item

mutual

/-- What a part of an outline leaves in a program, where the scope around it has the number `k` and the
first scope that it opens has the number `n`. -/
def deposits (n k : Nat) : Item → List Deposit
  | .bind _ => []
  | .hoist name => [.hoist name k]
  | .statement trees => [.statement trees k]
  | .scope kind outside inside => .scope n kind k ::
      (depositsAll (n + 1) k outside ++ depositsAll (n + 1 + scopesAll outside) n inside)

/-- What an outline leaves in a program. -/
def depositsAll (n k : Nat) : List Item → List Deposit
  | [] => []
  | item :: items => item.deposits n k ++ depositsAll (n + item.scopes) k items

end

section Deposits

variable (n k : Nat)

@[simp]
theorem depositsAll_nil : depositsAll n k [] = [] := rfl

@[simp]
theorem depositsAll_cons (item : Item) (items : List Item) :
    depositsAll n k (item :: items) = item.deposits n k ++ depositsAll (n + item.scopes) k items := rfl

@[simp]
theorem deposits_statement (trees : List Tree) :
    (statement trees).deposits n k = [.statement trees k] := rfl

@[simp]
theorem deposits_scope (kind : ScopeKind) (outside inside : List Item) :
    (scope kind outside inside).deposits n k = .scope n kind k ::
      (depositsAll (n + 1) k outside ++ depositsAll (n + 1 + scopesAll outside) n inside) := rfl

@[simp]
theorem depositsAll_append (a b : List Item) :
    depositsAll n k (a ++ b) = depositsAll n k a ++ depositsAll (n + scopesAll a) k b := by
  induction a generalizing n with
  | nil => rfl
  | cons item a ih => simp [ih, Nat.add_assoc]

@[simp]
theorem depositsAll_map_bind (names : List String) : depositsAll n k (names.map .bind) = [] := by
  induction names generalizing n with
  | nil => rfl
  | cons name names ih => exact ih _

@[simp]
theorem depositsAll_map_hoist (names : List String) :
    depositsAll n k (names.map .hoist) = names.map (Deposit.hoist · k) := by
  induction names generalizing n with
  | nil => rfl
  | cons name names ih => exact congrArg (Deposit.hoist name k :: ·) (ih _)

@[simp]
theorem depositsAll_bindName (name : Option String) : depositsAll n k (Outline.bindName name) = [] := by
  simp [Outline.bindName]

end Deposits

end Item

namespace Program

open Item (depositsAll deposits_scope depositsAll_cons)

/-- Whether something is in a program. -/
def Holds (program : Program) : Deposit → Prop
  | .scope n kind parent => ∃ names, program.scopes[n]? = some ⟨kind, some parent, names⟩
  | .statement trees k => ∃ s ∈ program.statements.toList, s.trees = trees ∧ s.scope = k
  | .hoist name k => program.BindsName (program.home k) name

/-- Whether a program has all that another one has, with more names in its scopes maybe. -/
structure Precedes (program later : Program) : Prop where
  scopes : ∀ (k : Nat) scope, program.scopes[k]? = some scope →
    ∃ names, later.scopes[k]? = some { scope with names } ∧ scope.names ⊆ names
  statements : program.statements.toList ⊆ later.statements.toList

variable {program program' later : Program} {place : Place} {k : Nat} {name : String}

theorem Precedes.refl (program : Program) : Precedes program program where
  scopes _ scope h := ⟨scope.names, h, List.Subset.refl _⟩
  statements := List.Subset.refl _

theorem Precedes.trans (h : Precedes program program') (h' : Precedes program' later) :
    Precedes program later where
  scopes k scope hk := by
    obtain ⟨names, hk, hnames⟩ := h.scopes k scope hk
    obtain ⟨names', hk, hnames'⟩ := h'.scopes k _ hk
    exact ⟨names', hk, List.Subset.trans hnames hnames'⟩
  statements := List.Subset.trans h.statements h'.statements

theorem Precedes.bindsName (h : Precedes program later) (hb : program.BindsName k name) :
    later.BindsName k name := by
  obtain ⟨scope, hk, hname⟩ := hb
  obtain ⟨names, hk, hnames⟩ := h.scopes k scope hk
  exact ⟨_, hk, hnames hname⟩

theorem precedes_addAll (items : List Item) (hs : place.scope < program.scopes.size)
    (hh : place.home < program.scopes.size) : Precedes program (program.addAll place items) where
  scopes k scope hk := by
    obtain ⟨names, hk, hnames⟩ := (adds_addAll program place items hs hh).scopes k scope hk
    exact ⟨names, hk, fun name hname => (hnames name).mpr (.inl hname)⟩
  statements := by
    obtain ⟨added, heq, -⟩ := (adds_addAll program place items hs hh).statements
    rw [heq]
    exact List.subset_append_left _ _

theorem bindsName_bind (hk : k < program.scopes.size) (name : String) :
    (program.bind k name).BindsName k name := by
  have hbound : (program.bind k name).scopes[k]? =
      some { program.scopes[k] with names := name :: program.scopes[k].names } := by
    rw [getElem?_bind, Array.getElem?_eq_getElem hk, Option.map_some, if_pos rfl]
  exact ⟨_, hbound, List.mem_cons_self⟩

mutual

theorem holds_add (program : Program) (place : Place) (item : Item)
    (hs : place.scope < program.scopes.size) (hh : place.home < program.scopes.size)
    (hlater : later.Rooted) (hp : Precedes (program.add place item) later)
    (hhome : later.home place.scope = place.home) :
    ∀ e ∈ item.deposits program.scopes.size place.scope, later.Holds e :=
  match item with
  | .bind _ => nofun
  | .hoist name => List.forall_mem_singleton.mpr <| by
    show later.BindsName (later.home place.scope) name
    rw [hhome]
    exact hp.bindsName (bindsName_bind hh name)
  | .statement trees => List.forall_mem_singleton.mpr
    ⟨⟨program.statements.size, trees, place.scope⟩, hp.statements (by simp [add, record]), rfl, rfl⟩
  | .scope kind outside inside => by
    have hopened := size_openScope program kind place.scope
    have hsize := size_addAll (program.openScope kind place.scope) place outside
    have hinner : program.scopes.size <
        ((program.openScope kind place.scope).addAll place outside).scopes.size := by omega
    obtain ⟨hscope, hhome'⟩ := place.within_lt kind hh hinner
    have hinside := (precedes_addAll inside hscope hhome').trans hp
    have houtside := (precedes_addAll outside (by omega) (by omega)).trans hinside
    obtain ⟨names, hnew, -⟩ := houtside.scopes _ _ (getElem?_openScope_size program kind place.scope)
    -- The home of the new scope is that of the place in it.
    have hnewHome : later.home program.scopes.size = (place.within kind program.scopes.size).home := by
      have hkind := (hlater.inner _ _ (Nat.zero_lt_of_lt hs) hnew).1
      rw [Rooted.home_inner hnew hs, hhome]
      cases kind with
      | module => exact absurd rfl hkind
      | function | block => rfl
    rw [deposits_scope, List.forall_mem_cons, List.forall_mem_append]
    refine ⟨⟨names, hnew⟩, ?_, ?_⟩
    · rw [← hopened]
      exact holds_addAll _ place outside (by omega) (by omega) hlater hinside hhome
    · rw [← hopened, ← hsize]
      exact holds_addAll _ (place.within kind program.scopes.size) inside hscope hhome' hlater hp hnewHome

/-- **What an outline leaves stays in the program**, whatever is added later. -/
theorem holds_addAll (program : Program) (place : Place) (items : List Item)
    (hs : place.scope < program.scopes.size) (hh : place.home < program.scopes.size)
    (hlater : later.Rooted) (hp : Precedes (program.addAll place items) later)
    (hhome : later.home place.scope = place.home) :
    ∀ e ∈ depositsAll program.scopes.size place.scope items, later.Holds e :=
  match items with
  | [] => nofun
  | item :: items => by
    have hsize := size_add program place item
    have hs' : place.scope < (program.add place item).scopes.size := by omega
    have hh' : place.home < (program.add place item).scopes.size := by omega
    rw [depositsAll_cons, List.forall_mem_append]
    constructor
    · exact holds_add program place item hs hh hlater ((precedes_addAll items hs' hh').trans hp) hhome
    · rw [← hsize]
      exact holds_addAll _ place items hs' hh' hlater hp hhome

end

theorem holds_ofOutline {items : List Item} (h : Rooted (ofOutline items)) :
    ∀ e ∈ depositsAll 1 0 items, (ofOutline items).Holds e :=
  holds_addAll empty .top items (by decide) (by decide) h (.refl _) h.home_zero

end Program

end DeferredLog
