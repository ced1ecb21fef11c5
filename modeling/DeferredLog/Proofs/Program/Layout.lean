import DeferredLog.Program
import DeferredLog.Proofs.Outline.Items

/-!
# How programs are laid out

What a program takes from its outline. The trees of its statements are those of the outline in order,
numbered from zero; its scopes, and the scope of each statement, come from the outline without them.

* `Program.trees_ofOutline`: the trees of the statements.
* `Program.ofOutline_eq_of_eraseAll`: what stays when only the trees of statements change.
-/

namespace DeferredLog

namespace Program

/-- A program without the trees of its statements. -/
def erase (program : Program) : Program :=
  { program with statements := program.statements.map fun s => { s with trees := [] } }

/-- The trees of the statements of a program in order. -/
def trees (program : Program) : List (List Tree) :=
  program.statements.toList.map (·.trees)

/-- Whether the statements of a program are numbered from zero. -/
def Numbered (program : Program) : Prop :=
  program.statements.toList.map (·.id) = List.range program.statements.size

section Steps

variable (program : Program) (scope : Nat) (name : String) (kind : ScopeKind) (x : List Tree)

@[simp]
theorem erase_bind : (program.bind scope name).erase = program.erase.bind scope name := rfl

@[simp]
theorem erase_openScope :
    (program.openScope kind scope).erase = program.erase.openScope kind scope := rfl

@[simp]
theorem erase_record : (program.record x scope).erase = program.erase.record [] scope := by
  simp [erase, record]

@[simp]
theorem trees_bind : (program.bind scope name).trees = program.trees := rfl

@[simp]
theorem trees_openScope : (program.openScope kind scope).trees = program.trees := rfl

@[simp]
theorem trees_record : (program.record x scope).trees = program.trees ++ [x] := by
  simp [trees, record]

theorem numbered_bind (h : program.Numbered) : (program.bind scope name).Numbered := h

theorem numbered_openScope (h : program.Numbered) : (program.openScope kind scope).Numbered := h

theorem numbered_record (h : program.Numbered) : (program.record x scope).Numbered := by
  unfold Numbered at *
  simp [record, h, List.range_succ]

@[simp]
theorem size_scopes_erase : program.erase.scopes.size = program.scopes.size := rfl

end Steps

mutual

theorem erase_add (program : Program) (place : Place) (item : Item) :
    (program.add place item).erase = program.erase.add place item.erase :=
  match item with
  | .bind name => by simp [add]
  | .hoist name => by simp [add]
  | .statement trees => by simp [add]
  | .scope kind outside inside => by
    simp [add, erase_addAll _ _ inside, erase_addAll _ _ outside]

theorem erase_addAll (program : Program) (place : Place) (items : List Item) :
    (program.addAll place items).erase = program.erase.addAll place (Item.eraseAll items) :=
  match items with
  | [] => rfl
  | item :: items => by
    simp [addAll, erase_addAll _ _ items, erase_add _ _ item]

end

mutual

theorem trees_add (program : Program) (place : Place) (item : Item) :
    (program.add place item).trees = program.trees ++ item.statements :=
  match item with
  | .bind name => by simp [add]
  | .hoist name => by simp [add]
  | .statement trees => by simp [add]
  | .scope kind outside inside => by
    simp [add, trees_addAll _ _ inside, trees_addAll _ _ outside]

theorem trees_addAll (program : Program) (place : Place) (items : List Item) :
    (program.addAll place items).trees = program.trees ++ Item.statementsAll items :=
  match items with
  | [] => by simp [addAll]
  | item :: items => by
    simp [addAll, trees_addAll _ _ items, trees_add _ _ item]

end

mutual

theorem numbered_add {program : Program} (h : program.Numbered) (place : Place) (item : Item) :
    (program.add place item).Numbered :=
  match item with
  | .bind _ | .hoist _ => numbered_bind _ _ _ h
  | .statement _ => numbered_record _ _ _ h
  | .scope _ outside inside =>
    numbered_addAll (numbered_addAll (numbered_openScope _ _ _ h) _ outside) _ inside

theorem numbered_addAll {program : Program} (h : program.Numbered) (place : Place)
    (items : List Item) : (program.addAll place items).Numbered :=
  match items with
  | [] => h
  | item :: items => numbered_addAll (numbered_add h place item) place items

end

/-- The statements of a program have the trees of those of its outline. -/
theorem trees_ofOutline (items : List Item) : (ofOutline items).trees = Item.statementsAll items := by
  rw [ofOutline, trees_addAll]
  rfl

/-- The statements of a program are numbered from zero. -/
theorem numbered_ofOutline (items : List Item) : (ofOutline items).Numbered :=
  numbered_addAll (show empty.Numbered from rfl) _ items

/-- The program with the trees of its statements replaced. -/
def mapTrees (f : List Tree → List Tree) (program : Program) : Program :=
  { program with statements := program.statements.map fun s => { s with trees := f s.trees } }

theorem statements_eq_map {a b : List Statement} {f : List Tree → List Tree}
    (he : b.map (fun s => { s with trees := [] }) = a.map fun s => { s with trees := [] })
    (ht : b.map (·.trees) = (a.map (·.trees)).map f) :
    b = a.map fun s => { s with trees := f s.trees } := by
  induction a generalizing b with
  | nil => simpa using he
  | cons s a ih =>
    cases b with
    | nil => cases he
    | cons t b =>
      simp only [List.map_cons, List.cons.injEq, Statement.mk.injEq] at he ht ⊢
      exact ⟨by cases t; simp_all, ih he.2 ht.2⟩

theorem eq_mapTrees {program program' : Program} {f : List Tree → List Tree}
    (he : program'.erase = program.erase) (ht : program'.trees = program.trees.map f) :
    program' = program.mapTrees f := by
  obtain ⟨scopes, ⟨a⟩⟩ := program
  obtain ⟨scopes', ⟨b⟩⟩ := program'
  simp only [erase, List.map_toArray, Program.mk.injEq, Array.mk.injEq] at he
  obtain ⟨rfl, he⟩ := he
  rw [statements_eq_map he ht]
  simp [mapTrees]

/-- **When only the trees of its statements change, a program stays the same but for them.** -/
theorem ofOutline_eq_of_eraseAll {items items' : List Item} {f : List Tree → List Tree}
    (he : Item.eraseAll items' = Item.eraseAll items)
    (hs : Item.statementsAll items' = (Item.statementsAll items).map f) :
    ofOutline items' = (ofOutline items).mapTrees f := by
  refine eq_mapTrees ?_ (by rw [trees_ofOutline, trees_ofOutline, hs])
  rw [ofOutline, ofOutline, erase_addAll, erase_addAll, he]

/-! ## Scopes -/

theorem ancestors_congr {program program' : Program} (h : program'.scopes = program.scopes)
    (scope : Nat) : program'.ancestors scope = program.ancestors scope := by
  induction scope using Nat.strongRecOn with
  | _ scope ih =>
    rw [ancestors, ancestors, h]
    split
    · rfl
    · split
      · rfl
      · split
        · rename_i hlt
          rw [ih _ hlt]
        · rfl

/-- Only the scopes of a program tell whether a name is bound anew. -/
theorem isShadowed_congr {program program' : Program} (h : program'.scopes = program.scopes)
    (name : String) (scope : Nat) :
    program'.isShadowed name scope = program.isShadowed name scope := by
  have hrebinds : program'.rebinds name = program.rebinds name := by
    funext scope
    rw [rebinds, rebinds, h]
  rw [isShadowed, isShadowed, ancestors_congr h, hrebinds]

theorem mem_mapTrees {program : Program} {f : List Tree → List Tree} {s' : Statement}
    (h : s' ∈ (program.mapTrees f).statements.toList) :
    ∃ s ∈ program.statements.toList, s' = { s with trees := f s.trees } := by
  rw [mapTrees, Array.toList_map] at h
  obtain ⟨s, hs, rfl⟩ := List.mem_map.mp h
  exact ⟨s, hs, rfl⟩

end Program

end DeferredLog
