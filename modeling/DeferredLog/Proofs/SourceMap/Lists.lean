import Mathlib.Data.List.Forall2

/-!
# Lists read element by element

A list is read if each of its elements is, and if not its first bad element is the fault.

* `mapM_eq_ok_iff`: the results are those of the elements.
* `mapM_map_eq_ok`: elements that are each read back are read back one after another.
* `mapM_eq_error_iff`: the fault is that of the first bad element.
* `mapM_flatMap`: lists are read one after another as they are read all in one.
-/

namespace DeferredLog

theorem exists_of_bind {ε α β : Type} {x : Except ε α} {f : α → Except ε β} {b : β}
    (h : x >>= f = .ok b) : ∃ a, x = .ok a ∧ f a = .ok b := by
  cases x with
  | error => cases h
  | ok a => exact ⟨a, rfl, h⟩

variable {α β γ ε : Type} {read : α → Except ε β} {fault : ε} {items : List α}

/-- A list is read if each of its elements is. -/
theorem mapM_eq_ok_iff {results : List β} :
    items.mapM read = .ok results ↔ List.Forall₂ (fun item result => read item = .ok result) items results := by
  induction items generalizing results with
  | nil =>
    rw [List.mapM_nil, List.forall₂_nil_left_iff]
    exact ⟨fun h => (Except.ok.inj h).symm, fun h => h ▸ rfl⟩
  | cons item items ih =>
    rw [List.mapM_cons, List.forall₂_cons_left_iff]
    constructor
    · intro h
      obtain ⟨result, hresult, h⟩ := exists_of_bind h
      obtain ⟨results, hresults, h⟩ := exists_of_bind h
      cases h
      exact ⟨result, results, hresult, ih.mp hresults, rfl⟩
    · rintro ⟨result, results, hresult, hresults, rfl⟩
      rw [hresult, ih.mpr hresults]
      rfl

/-- Elements that are each read back are read back one after another. -/
theorem mapM_map_eq_ok {write : β → α} {results : List β}
    (h : ∀ result ∈ results, read (write result) = .ok result) :
    (results.map write).mapM read = .ok results :=
  mapM_eq_ok_iff.mpr (List.forall₂_map_left_iff.mpr (List.forall₂_same.mpr h))

/-- A list is not read because of its first element that is not. -/
theorem mapM_eq_error_iff : items.mapM read = .error fault ↔
    ∃ before item after, items = before ++ item :: after ∧
      (∀ item ∈ before, ∃ result, read item = .ok result) ∧ read item = .error fault := by
  constructor
  · intro h
    induction items with
    | nil => cases h
    | cons item items ih =>
      rw [List.mapM_cons] at h
      cases hitem : read item with
      | error other =>
        rw [hitem] at h
        cases h
        exact ⟨[], item, items, rfl, by simp, hitem⟩
      | ok result =>
        rw [hitem] at h
        cases hrest : items.mapM read with
        | ok results =>
          rw [hrest] at h
          cases h
        | error other =>
          rw [hrest] at h
          cases h
          obtain ⟨before, bad, after, rfl, hbefore, hbad⟩ := ih hrest
          exact ⟨item :: before, bad, after, rfl, List.forall_mem_cons.mpr ⟨⟨result, hitem⟩, hbefore⟩, hbad⟩
  · rintro ⟨before, item, after, rfl, hbefore, hitem⟩
    induction before with
    | nil => rw [List.nil_append, List.mapM_cons, hitem]; rfl
    | cons first before ih =>
      obtain ⟨⟨result, hfirst⟩, hbefore⟩ := List.forall_mem_cons.mp hbefore
      rw [List.cons_append, List.mapM_cons, hfirst, ih hbefore]
      rfl

theorem exists_mapM_iff : (∃ results, items.mapM read = .ok results) ↔
    ∀ item ∈ items, ∃ result, read item = .ok result := by
  constructor
  · rintro ⟨results, h⟩
    rw [mapM_eq_ok_iff] at h
    induction h with
    | nil => simp
    | cons hitem _ ih => exact List.forall_mem_cons.mpr ⟨⟨_, hitem⟩, ih⟩
  · intro h
    cases hm : items.mapM read with
    | ok results => exact ⟨results, rfl⟩
    | error fault =>
      obtain ⟨before, item, after, rfl, -, hitem⟩ := mapM_eq_error_iff.mp hm
      obtain ⟨result, hresult⟩ := h item (List.mem_append_right before List.mem_cons_self)
      cases hitem.symm.trans hresult

/-- Lists are read one after another as they are read all in one. -/
theorem mapM_flatMap {pieces : γ → List α} {groups : List γ} :
    (groups.flatMap pieces).mapM read = (groups.mapM fun group => (pieces group).mapM read).map List.flatten := by
  induction groups with
  | nil => rfl
  | cons group groups ih =>
    rw [List.flatMap_cons, List.mapM_append, List.mapM_cons, ih]
    cases (pieces group).mapM read with
    | error other => rfl
    | ok results => cases groups.mapM fun group => (pieces group).mapM read <;> rfl

end DeferredLog
