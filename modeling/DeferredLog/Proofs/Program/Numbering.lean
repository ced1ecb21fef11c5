import DeferredLog.Proofs.Outline.Visits
import DeferredLog.Proofs.Program.Bindings

/-!
# How scopes are numbered

A scope gets its number when it opens, so the scopes of an outline have the numbers that follow each other
where it is added to a program. The scopes around a statement are those that the outline has around it,
with these numbers.

* `Item.sites`: each statement of an outline with the numbers of the scopes around it.
* `Item.mem_around`: these are numbers of scopes that the outline opens.
* `Item.openings`: the scopes of an outline in the order of their numbers.
* `Program.sites_ofOutline`: the ancestors of the scopes of statements.
* `Program.scopes_ofOutline`: the scope with a number, and what it binds.
-/

namespace DeferredLog

/-- A statement with the numbers of the scopes around it, the innermost first. -/
structure Site where
  /-- Its trees. -/
  trees : List Tree
  /-- The numbers of the scopes around it. -/
  around : List Nat

/-- The same statement with more scopes around it. -/
def Site.within (site : Site) (numbers : List Nat) : Site :=
  ⟨site.trees, site.around ++ numbers⟩

@[simp]
theorem Site.within_nil (site : Site) : site.within [] = site := by
  simp [within]

@[simp]
theorem Site.within_within (site : Site) (a b : List Nat) :
    (site.within a).within b = site.within (a ++ b) := by
  simp [within]

/-- A scope that opens, with what is inside of it. -/
structure Opening where
  /-- Its kind. -/
  kind : ScopeKind
  /-- What is inside of it. -/
  inside : List Item

namespace Opening

/-- The names that a scope binds when all that is inside of it has been added. -/
def names (opening : Opening) : List String :=
  Item.bindsAll opening.inside ++ if opening.kind = .block then [] else Item.hoistsAll opening.inside

end Opening

namespace Item

mutual

/-- The scopes that a part of an outline opens, in order. -/
def openings : Item → List Opening
  | .bind _ | .hoist _ | .statement _ => []
  | .scope kind outside inside => ⟨kind, inside⟩ :: (openingsAll outside ++ openingsAll inside)

/-- The scopes that an outline opens, in order. -/
def openingsAll : List Item → List Opening
  | [] => []
  | item :: items => item.openings ++ openingsAll items

end

mutual

/-- The statements in a part of an outline, with the scopes of the part around each. The first scope that
it opens has the number `n`. -/
def sites (n : Nat) : Item → List Site
  | .bind _ | .hoist _ => []
  | .statement trees => [⟨trees, []⟩]
  | .scope _ outside inside =>
    sitesAll (n + 1) outside ++ (sitesAll (n + 1 + scopesAll outside) inside).map (·.within [n])

/-- The statements in an outline, with the scopes of the outline around each. -/
def sitesAll (n : Nat) : List Item → List Site
  | [] => []
  | item :: items => item.sites n ++ sitesAll (n + item.scopes) items

end

section Sites

variable (n : Nat)

@[simp]
theorem sitesAll_nil : sitesAll n [] = [] := rfl

@[simp]
theorem sitesAll_cons (item : Item) (items : List Item) :
    sitesAll n (item :: items) = item.sites n ++ sitesAll (n + item.scopes) items := rfl

@[simp]
theorem sites_statement (trees : List Tree) : (statement trees).sites n = [⟨trees, []⟩] := rfl

@[simp]
theorem sites_scope (kind : ScopeKind) (outside inside : List Item) :
    (scope kind outside inside).sites n = sitesAll (n + 1) outside ++
      (sitesAll (n + 1 + scopesAll outside) inside).map (·.within [n]) := rfl

@[simp]
theorem sitesAll_append (a b : List Item) :
    sitesAll n (a ++ b) = sitesAll n a ++ sitesAll (n + scopesAll a) b := by
  induction a generalizing n with
  | nil => rfl
  | cons item a ih => simp [ih, Nat.add_assoc]

@[simp]
theorem sitesAll_map_bind (names : List String) : sitesAll n (names.map .bind) = [] := by
  induction names generalizing n with
  | nil => rfl
  | cons name names ih => exact ih _

@[simp]
theorem sitesAll_map_hoist (names : List String) : sitesAll n (names.map .hoist) = [] := by
  induction names generalizing n with
  | nil => rfl
  | cons name names ih => exact ih _

@[simp]
theorem scopesAll_map_bind (names : List String) : scopesAll (names.map .bind) = 0 := by
  induction names with
  | nil => rfl
  | cons name names ih => simpa [scopes] using ih

@[simp]
theorem scopesAll_map_hoist (names : List String) : scopesAll (names.map .hoist) = 0 := by
  induction names with
  | nil => rfl
  | cons name names ih => simpa [scopes] using ih

@[simp]
theorem scopes_statement (trees : List Tree) : (statement trees).scopes = 0 := rfl

@[simp]
theorem sitesAll_bindName (name : Option String) : sitesAll n (Outline.bindName name) = [] := by
  simp [Outline.bindName]

@[simp]
theorem scopesAll_bindName (name : Option String) : scopesAll (Outline.bindName name) = 0 := by
  simp [Outline.bindName]

@[simp]
theorem sitesAll_loopNames (head : List Tree) : sitesAll n (Outline.loopNames head) = [] := by
  obtain ⟨names, h | h⟩ := Outline.exists_loopNames_eq head <;> simp [h]

@[simp]
theorem scopesAll_loopNames (head : List Tree) : scopesAll (Outline.loopNames head) = 0 := by
  obtain ⟨names, h | h⟩ := Outline.exists_loopNames_eq head <;> simp [h]

end Sites

section Openings

@[simp]
theorem openingsAll_nil : openingsAll [] = [] := rfl

@[simp]
theorem openingsAll_cons (item : Item) (items : List Item) :
    openingsAll (item :: items) = item.openings ++ openingsAll items := rfl

@[simp]
theorem openings_statement (trees : List Tree) : (statement trees).openings = [] := rfl

@[simp]
theorem openings_scope (kind : ScopeKind) (outside inside : List Item) :
    (scope kind outside inside).openings =
      ⟨kind, inside⟩ :: (openingsAll outside ++ openingsAll inside) := rfl

@[simp]
theorem openingsAll_append (a b : List Item) : openingsAll (a ++ b) = openingsAll a ++ openingsAll b := by
  induction a with
  | nil => rfl
  | cons item a ih => simp [ih]

mutual

theorem length_openings (item : Item) : item.openings.length = item.scopes :=
  match item with
  | .bind _ | .hoist _ | .statement _ => rfl
  | .scope _ outside inside => by
    rw [openings_scope, List.length_cons, List.length_append, length_openingsAll outside,
      length_openingsAll inside, scopes_scope]
    omega

theorem length_openingsAll (items : List Item) : (openingsAll items).length = scopesAll items :=
  match items with
  | [] => rfl
  | item :: items => by
    rw [openingsAll_cons, List.length_append, length_openings item, length_openingsAll items,
      scopesAll_cons]

end

/-- What opens no scopes has no openings. -/
theorem openingsAll_of_scopesAll {items : List Item} (h : scopesAll items = 0) : openingsAll items = [] :=
  List.eq_nil_of_length_eq_zero ((length_openingsAll items).trans h)

@[simp]
theorem openingsAll_map_bind (names : List String) : openingsAll (names.map .bind) = [] :=
  openingsAll_of_scopesAll (scopesAll_map_bind names)

@[simp]
theorem openingsAll_map_hoist (names : List String) : openingsAll (names.map .hoist) = [] :=
  openingsAll_of_scopesAll (scopesAll_map_hoist names)

@[simp]
theorem openingsAll_bindName (name : Option String) : openingsAll (Outline.bindName name) = [] :=
  openingsAll_of_scopesAll (scopesAll_bindName name)

@[simp]
theorem openingsAll_loopNames (head : List Tree) : openingsAll (Outline.loopNames head) = [] :=
  openingsAll_of_scopesAll (scopesAll_loopNames head)

end Openings

mutual

theorem mem_around_one {n k : Nat} {site : Site} (item : Item) (h : site ∈ item.sites n)
    (hk : k ∈ site.around) : n ≤ k ∧ k < n + item.scopes :=
  match item with
  | .bind _ | .hoist _ => nomatch h
  | .statement trees => by
    obtain rfl := List.mem_singleton.mp h
    cases hk
  | .scope _ outside inside => by
    rw [sites_scope, List.mem_append, List.mem_map] at h
    rw [scopes_scope]
    rcases h with h | ⟨site, h, rfl⟩
    · have := mem_around outside h hk
      omega
    · rcases List.mem_append.mp hk with hk | hk
      · have := mem_around inside h hk
        omega
      · obtain rfl := List.mem_singleton.mp hk
        omega

/-- The scopes around a statement have numbers of scopes that the outline opens. -/
theorem mem_around {n k : Nat} {site : Site} (items : List Item) (h : site ∈ sitesAll n items)
    (hk : k ∈ site.around) : n ≤ k ∧ k < n + scopesAll items :=
  match items with
  | [] => nomatch h
  | item :: items => by
    rw [scopesAll_cons]
    rcases List.mem_append.mp h with h | h
    · have := mem_around_one item h hk
      omega
    · have := mem_around items h hk
      omega

end

end Item

namespace Program

open Item

/-! ## Programs -/

/-- A statement of a program with the numbers of the scopes around it. -/
def site (program : Program) (s : Statement) : Site :=
  ⟨s.trees, program.ancestors s.scope⟩

/-- Whether all scopes of a program are in another one, up to their names. -/
def Extends (program later : Program) : Prop :=
  ∀ (k : Nat) scope, program.scopes[k]? = some scope → ∃ names, later.scopes[k]? = some { scope with names }

/-- What is added to a program are statements in scopes with the given numbers and in those around the
place. -/
def AddsSites (place : Place) (sites : List Site) (program program' : Program) : Prop :=
  ∃ added, program'.statements.toList = program.statements.toList ++ added ∧
    ∀ later, Extends program' later →
      added.map later.site = sites.map (·.within (later.ancestors place.scope))

variable {program program' program'' later : Program} {place : Place}

theorem Extends.refl (program : Program) : Extends program program :=
  fun _ scope h => ⟨scope.names, h⟩

theorem Extends.trans (h : Extends program program') (h' : Extends program' program'') :
    Extends program program'' := by
  intro k scope hk
  obtain ⟨names, hk⟩ := h k scope hk
  exact h' k { scope with names } hk

theorem extends_addAll (items : List Item) (hs : place.scope < program.scopes.size)
    (hh : place.home < program.scopes.size) : Extends program (program.addAll place items) := by
  intro k scope hk
  obtain ⟨names, hk, -⟩ := (adds_addAll program place items hs hh).scopes k scope hk
  exact ⟨names, hk⟩

mutual

theorem size_add (program : Program) (place : Place) (item : Item) :
    (program.add place item).scopes.size = program.scopes.size + item.scopes :=
  match item with
  | .bind name => size_bind program place.scope name
  | .hoist name => size_bind program place.home name
  | .statement _ => rfl
  | .scope kind outside inside => by
    rw [add, size_addAll _ _ inside, size_addAll _ _ outside, openScope, Array.size_push,
      scopes_scope]
    omega

/-- As many scopes are added as the outline opens. -/
theorem size_addAll (program : Program) (place : Place) (items : List Item) :
    (program.addAll place items).scopes.size = program.scopes.size + scopesAll items :=
  match items with
  | [] => rfl
  | item :: items => by
    rw [addAll, size_addAll _ _ items, size_add _ _ item, scopesAll_cons, Nat.add_assoc]

end

theorem AddsSites.nil (place : Place) (program : Program) : AddsSites place [] program program :=
  ⟨[], by simp, by simp⟩

theorem AddsSites.trans {a b : List Site} (h : AddsSites place a program program')
    (h' : AddsSites place b program' program'') (he : Extends program' program'') :
    AddsSites place (a ++ b) program program'' := by
  obtain ⟨added, heq, hsites⟩ := h
  obtain ⟨added', heq', hsites'⟩ := h'
  refine ⟨added ++ added', by rw [heq', heq, List.append_assoc], fun later hlater => ?_⟩
  rw [List.map_append, List.map_append, hsites later (he.trans hlater), hsites' later hlater]

/-- The scopes around one that was opened are those around the place, and itself. -/
theorem ancestors_of_openScope {kind : ScopeKind} (hs : place.scope < program.scopes.size)
    (h : Extends (program.openScope kind place.scope) later) :
    later.ancestors program.scopes.size = program.scopes.size :: later.ancestors place.scope := by
  obtain ⟨names, hk⟩ := h _ _ (getElem?_openScope_size program kind place.scope)
  rw [ancestors, hk]
  simp [hs]

mutual

theorem addsSites_add (program : Program) (place : Place) (item : Item)
    (hs : place.scope < program.scopes.size) (hh : place.home < program.scopes.size) :
    AddsSites place (item.sites program.scopes.size) program (program.add place item) :=
  match item with
  | .bind _ | .hoist _ => ⟨[], by simp [add, bind], by simp [sites]⟩
  | .statement trees => ⟨[⟨program.statements.size, trees, place.scope⟩], by simp [add, record],
      by simp [site, Site.within]⟩
  | .scope kind outside inside => by
    have hopened := size_openScope program kind place.scope
    have hsize := size_addAll (program.openScope kind place.scope) place outside
    have houtside : AddsSites place (sitesAll (program.scopes.size + 1) outside) program
        ((program.openScope kind place.scope).addAll place outside) :=
      hopened ▸ addsSites_addAll (program.openScope kind place.scope) place outside (by omega) (by omega)
    have hnew : program.scopes.size <
        ((program.openScope kind place.scope).addAll place outside).scopes.size := by omega
    obtain ⟨hscope, hhome⟩ := place.within_lt kind hh hnew
    obtain ⟨added, heq, hsites⟩ := addsSites_addAll _ (place.within kind program.scopes.size) inside
      hscope hhome
    have hextends := extends_addAll inside hscope hhome
    refine houtside.trans ⟨added, heq, fun later hlater => ?_⟩ hextends
    have hopens : Extends (program.openScope kind place.scope) later :=
      (extends_addAll outside (by omega) (by omega)).trans (hextends.trans hlater)
    rw [hsites later hlater, hsize, hopened, List.map_map]
    refine List.map_congr_left fun site _ => ?_
    rw [Function.comp_apply, Site.within_within]
    exact congrArg site.within (ancestors_of_openScope hs hopens)

theorem addsSites_addAll (program : Program) (place : Place) (items : List Item)
    (hs : place.scope < program.scopes.size) (hh : place.home < program.scopes.size) :
    AddsSites place (sitesAll program.scopes.size items) program (program.addAll place items) :=
  match items with
  | [] => .nil place program
  | item :: items => by
    have hsize := size_add program place item
    have hmore := addsSites_addAll (program.add place item) place items (by omega) (by omega)
    rw [hsize] at hmore
    exact (addsSites_add program place item hs hh).trans hmore
      (extends_addAll items (by omega) (by omega))

end

/-- **The scopes around each statement** are those that the outline has around it, numbered in the order in
which they open, and the module. -/
theorem sites_ofOutline (items : List Item) :
    (ofOutline items).statements.toList.map (ofOutline items).site =
      (sitesAll 1 items).map (·.within [0]) := by
  obtain ⟨added, heq, hsites⟩ := addsSites_addAll empty .top items (by decide) (by decide)
  have hmodule : (ofOutline items).ancestors 0 = [0] := by
    have hextends : Extends empty (empty.addAll .top items) :=
      extends_addAll items (by decide) (by decide)
    obtain ⟨names, hk⟩ := hextends 0 ⟨.module, none, []⟩ rfl
    rw [ancestors, ofOutline, hk]
  have htop := hsites (ofOutline items) (.refl _)
  rw [show Place.top.scope = 0 from rfl, hmodule] at htop
  rw [ofOutline, heq]
  exact htop

/-- A statement of a program is one of the outline, with the scopes around it. -/
theorem exists_site {items : List Item} {s : Statement} (hs : s ∈ (ofOutline items).statements.toList) :
    ∃ site ∈ sitesAll 1 items, s.trees = site.trees ∧
      (ofOutline items).ancestors s.scope = site.around ++ [0] := by
  have hmem := List.mem_map_of_mem (f := (ofOutline items).site) hs
  rw [sites_ofOutline] at hmem
  obtain ⟨site, hsite, heq⟩ := List.mem_map.mp hmem
  exact ⟨site, hsite, (congrArg Site.trees heq).symm, (congrArg Site.around heq).symm⟩

/-! ## Tables -/

theorem Keeps.trans {first : Nat} (h : Keeps first program program') (h' : Keeps first program' program'') :
    Keeps first program program'' := by
  intro k scope hle hk
  obtain ⟨names, hk, hmem⟩ := h k scope hle hk
  obtain ⟨names', hk, hmem'⟩ := h' k { scope with names } hle hk
  exact ⟨names', hk, fun name => (hmem' name).trans (hmem name)⟩

theorem Keeps.mono {first first' : Nat} (h : Keeps first program program') (hle : first ≤ first') :
    Keeps first' program program' :=
  fun k scope hk => h k scope (Nat.le_trans hle hk)

/-- What is added at a place binds names in the scopes there only. -/
theorem keeps_addAll (items : List Item) (hs : place.scope < program.scopes.size)
    (hh : place.home < program.scopes.size) {first : Nat} (hs' : place.scope < first)
    (hh' : place.home < first) : Keeps first program (program.addAll place items) := by
  intro k scope hle hk
  obtain ⟨names, hk, hmem⟩ := (adds_addAll program place items hs hh).scopes k scope hk
  refine ⟨names, hk, fun name => ?_⟩
  rw [hmem]
  have : k ≠ place.scope := by omega
  have : k ≠ place.home := by omega
  tauto

/-- Adding to a program opens the given scopes, one after another. -/
def AddsScopes (openings : List Opening) (program program' : Program) : Prop :=
  ∀ later, Keeps program.scopes.size program' later → ∀ j opening, openings[j]? = some opening →
    ∃ parent bound, later.scopes[program.scopes.size + j]? = some ⟨opening.kind, some parent, bound⟩ ∧
      ∀ name, name ∈ bound ↔ name ∈ opening.names

mutual

theorem addsScopes_add (program : Program) (place : Place) (item : Item)
    (hs : place.scope < program.scopes.size) (hh : place.home < program.scopes.size) :
    AddsScopes item.openings program (program.add place item) :=
  match item with
  | .bind _ | .hoist _ | .statement _ => by simp [AddsScopes, openings]
  | .scope kind outside inside => by
    intro later hkeeps j opening hj
    have hopened := size_openScope program kind place.scope
    have hsize := size_addAll (program.openScope kind place.scope) place outside
    have hnew : program.scopes.size <
        ((program.openScope kind place.scope).addAll place outside).scopes.size := by omega
    obtain ⟨hscope, hhome⟩ := place.within_lt kind hh hnew
    obtain ⟨hfirst, hfirst'⟩ := place.within_lt kind hh (Nat.lt_succ_self program.scopes.size)
    cases j with
    | zero =>
      obtain rfl : ⟨kind, inside⟩ = opening := Option.some.inj hj
      obtain ⟨bound, hbound, hmem⟩ := opens_scope kind outside inside [] program place hs hh
      obtain ⟨names, hk, hnames⟩ := hkeeps _ _ (Nat.le_refl _) hbound
      exact ⟨place.scope, names, hk, fun name => (hnames name).trans (hmem name)⟩
    | succ j =>
      have hlater : Keeps (program.scopes.size + 1) (program.add place (.scope kind outside inside)) later :=
        hkeeps.mono (Nat.le_succ _)
      rw [openings_scope, List.getElem?_cons_succ] at hj
      by_cases hlt : j < (openingsAll outside).length
      · rw [List.getElem?_append_left hlt] at hj
        have houtside := addsScopes_addAll (program.openScope kind place.scope) place outside (by omega)
          (by omega) later (hopened ▸ (keeps_addAll inside hscope hhome hfirst hfirst').trans hlater) j opening hj
        rwa [hopened, show program.scopes.size + 1 + j = program.scopes.size + (j + 1) by omega] at houtside
      · rw [List.getElem?_append_right (Nat.le_of_not_lt hlt)] at hj
        rw [length_openingsAll] at hj hlt
        have hinside := addsScopes_addAll _ (place.within kind program.scopes.size) inside hscope hhome later
          (hlater.mono (by omega)) _ opening hj
        rwa [hsize, hopened, show program.scopes.size + 1 + scopesAll outside + (j - scopesAll outside) =
          program.scopes.size + (j + 1) by omega] at hinside

theorem addsScopes_addAll (program : Program) (place : Place) (items : List Item)
    (hs : place.scope < program.scopes.size) (hh : place.home < program.scopes.size) :
    AddsScopes (openingsAll items) program (program.addAll place items) :=
  match items with
  | [] => by simp [AddsScopes]
  | item :: items => by
    intro later hkeeps j opening hj
    have hsize := size_add program place item
    rw [openingsAll_cons] at hj
    by_cases hlt : j < item.openings.length
    · rw [List.getElem?_append_left hlt] at hj
      exact addsScopes_add program place item hs hh later
        ((keeps_addAll items (by omega) (by omega) hs hh).trans hkeeps) j opening hj
    · rw [List.getElem?_append_right (Nat.le_of_not_lt hlt)] at hj
      rw [length_openings] at hj hlt
      have hmore := addsScopes_addAll (program.add place item) place items (by omega) (by omega) later
        (hkeeps.mono (by omega)) _ opening hj
      rwa [hsize, show program.scopes.size + item.scopes + (j - item.scopes) = program.scopes.size + j by
        omega] at hmore

end

/-- **The scopes of a program** are the module and those that the outline opens, in order, and each binds
what the outline has inside of it. -/
theorem scopes_ofOutline {items : List Item} {j : Nat} {opening : Opening}
    (h : (openingsAll items)[j]? = some opening) : ∃ parent bound,
      (ofOutline items).scopes[1 + j]? = some ⟨opening.kind, some parent, bound⟩ ∧
        ∀ name, name ∈ bound ↔ name ∈ opening.names :=
  addsScopes_addAll empty .top items (by decide) (by decide) (ofOutline items)
    (fun _ scope _ hk => ⟨scope.names, hk, fun _ => Iff.rfl⟩) j opening h

end Program

end DeferredLog
