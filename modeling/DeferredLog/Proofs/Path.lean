import Mathlib.Data.List.TakeWhile
import DeferredLog.Path
import DeferredLog.Proofs.Text.Split

/-!
# What paths denote

A path from the root denotes a place, the names that lead to it: a dot stays where it is, a step to
the parent takes the last name off, and the root is its own parent. No files are looked at.

A normalized path spells its place in one way, except that it may start with one step above the root.
A root of a project is not normalized, and `inProject?` takes its text off the front of a path.

* `Path.normalize_components`: a normalized path spells the place that the path denotes.
* `Path.place_spell`: a spelled place is denoted by its spelling.
* `Path.inProject?_spell`: a path lies in a project by its text as it does by its place, provided that
  the root is spelled as the front of the path is.
-/

namespace DeferredLog.Path

/-! ## Places -/

/-- The place that one more component leads to. The root is its own parent. -/
def down (place : List String) : Component → List String
  | .root => []
  | .current => place
  | .parent => place.dropLast
  | .name text => place ++ [text]

/-- The place that some pieces between slashes lead to from the root. -/
def placeOf (pieces : List (List Char)) : List String :=
  (pieces.filterMap ofPiece?).foldl down []

/-- The place that a path denotes, told the names that lead to it from the root. -/
def place (path : String) : List String :=
  (components path).foldl down []

/-- The path from a directory to a place below it. There is none to the directory itself. -/
def below? (directory place : List String) : Option String :=
  if directory <+: place ∧ directory ≠ place then
    some (String.ofList (Text.joinWith '/' ([] :: (place.drop directory.length).map String.toList)))
  else none

example : place "/w/./src/../lib" = ["w", "lib"] ∧ place "/../w" = ["w"] := by decide +kernel

example : below? ["w"] ["w", "src", "a.ts"] = some "/src/a.ts" ∧ below? ["w"] ["w"] = none := by
  decide +kernel

/-- A name is a piece between slashes that is a component. -/
structure IsName (name : String) : Prop where
  /-- There is no slash in it. -/
  noSlash : '/' ∉ name.toList
  /-- It is neither empty nor a dot nor a step to the parent. -/
  isComponent : ofPiece? name.toList = some (.name name)

theorem IsName.ne_nil {name : String} (h : IsName name) : name.toList ≠ [] := by
  intro he
  have := h.isComponent
  simp [he, ofPiece?] at this

/-- A text that is longer than the two special ones is a name. -/
theorem isName_of_length {name : String} (hs : '/' ∉ name.toList) (hl : 2 < name.toList.length) :
    IsName name := by
  refine ⟨hs, ?_⟩
  have h₁ : name.toList ≠ ['.'] := fun h => by simp [h] at hl
  have h₂ : name.toList ≠ ['.', '.'] := fun h => by simp [h] at hl
  have h₃ : name.toList ≠ [] := fun h => by simp [h] at hl
  simp [ofPiece?, h₁, h₂, h₃]

/-- What a piece between slashes can be. -/
theorem ofPiece?_cases {piece : List Char} {component : Component}
    (hs : '/' ∉ piece) (h : ofPiece? piece = some component) :
    component = .parent ∨ ∃ name, component = .name name ∧ IsName name := by
  have hpiece := h
  unfold ofPiece? at h
  split at h
  · cases h
  · split at h
    · cases h
      exact .inl rfl
    · cases h
      exact .inr ⟨_, rfl, by simpa using hs, by simpa using hpiece⟩

theorem components_of_absolute {path : String} (h : path.toList.head? = some '/') :
    components path = .root :: (Text.splitOn '/' path.toList).filterMap ofPiece? := by
  simp [components, start, h]

theorem place_of_absolute {path : String} (h : path.toList.head? = some '/') :
    place path = placeOf (Text.splitOn '/' path.toList) := by
  rw [place, components_of_absolute h]
  rfl

/-! ## Spelled places -/

/-- The pieces of the spelling of a place, which may start with a step above the root. -/
def spelling (climbs : Bool) (names : List String) : List (List Char) :=
  [] :: (if climbs then [['.', '.']] else []) ++ names.map String.toList

/-- A place as text, which may start with a step above the root. The root itself is empty. -/
def spell (climbs : Bool) (names : List String) : List Char :=
  Text.joinWith '/' (spelling climbs names)

/-- The components of a normalized path from the root. -/
def normal (climbs : Bool) (names : List String) : List Component :=
  .root :: (if climbs then [.parent] else []) ++ names.map .name

theorem normal_concat (climbs : Bool) (names : List String) (name : String) :
    normal climbs (names ++ [name]) = normal climbs names ++ [.name name] := by
  simp [normal]

/-- One more component keeps a path normalized. -/
theorem step_normal (climbs : Bool) (names : List String) {component : Component}
    (h : component = .parent ∨ ∃ name, component = .name name ∧ IsName name) :
    ∃ climbs', step (normal climbs names) component = normal climbs' (down names component) := by
  rcases h with rfl | ⟨name, rfl, -⟩
  · rcases List.eq_nil_or_concat names with rfl | ⟨front, last, rfl⟩
    · exact ⟨!climbs, by cases climbs <;> rfl⟩
    · exact ⟨climbs, by simp [step, normal_concat, hasParent, down]⟩
  · exact ⟨climbs, by simp [step, normal_concat, down]⟩

theorem isName_down {names : List String} (h : ∀ name ∈ names, IsName name) {component : Component}
    (hc : component = .parent ∨ ∃ name, component = .name name ∧ IsName name) :
    ∀ name ∈ down names component, IsName name := by
  rcases hc with rfl | ⟨last, rfl, hlast⟩
  · exact fun name hm => h name (List.dropLast_subset _ hm)
  · intro name hm
    rcases List.mem_append.mp hm with hm | hm
    · exact h name hm
    · rwa [List.mem_singleton.mp hm]

theorem foldl_step_normal {rest : List Component}
    (h : ∀ c ∈ rest, c = .parent ∨ ∃ name, c = .name name ∧ IsName name) (climbs : Bool)
    {names : List String} (hn : ∀ name ∈ names, IsName name) :
    ∃ climbs', rest.foldl step (normal climbs names) = normal climbs' (rest.foldl down names) ∧
      ∀ name ∈ rest.foldl down names, IsName name := by
  induction rest generalizing climbs names with
  | nil => exact ⟨climbs, rfl, hn⟩
  | cons c rest ih =>
    obtain ⟨hc, hrest⟩ := List.forall_mem_cons.mp h
    obtain ⟨climbs', hstep⟩ := step_normal climbs names hc
    rw [List.foldl_cons, List.foldl_cons, hstep]
    exact ih hrest climbs' (isName_down hn hc)

/-- **A normalized path spells the place that the path denotes.** -/
theorem normalize_components {path : String} (h : path.toList.head? = some '/') :
    ∃ climbs, normalize (components path) = normal climbs (place path) ∧
      ∀ name ∈ place path, IsName name := by
  have hrest : ∀ c ∈ (Text.splitOn '/' path.toList).filterMap ofPiece?,
      c = .parent ∨ ∃ name, c = .name name ∧ IsName name := by
    intro c hc
    obtain ⟨piece, hp, hc⟩ := List.mem_filterMap.mp hc
    exact ofPiece?_cases (Text.notMem_of_mem_splitOn hp) hc
  rw [place, components_of_absolute h]
  exact foldl_step_normal hrest false (show ∀ name ∈ [], IsName name by simp)

/-! ## Texts -/

theorem toList_intercalate (parts : List String) :
    ("/".intercalate parts).toList = Text.joinWith '/' (parts.map String.toList) := by
  induction parts with
  | nil => rfl
  | cons first parts ih =>
    by_cases h : parts = []
    · simp [h, Text.joinWith]
    · rw [String.intercalate_cons_of_ne_nil h, List.map_cons,
        Text.joinWith_cons '/' _ (by simpa using h), String.toList_append, String.toList_append, ih,
        List.append_assoc]
      rfl

theorem map_text_normal (climbs : Bool) (names : List String) :
    (normal climbs names).map (String.toList ∘ Component.text) = spelling climbs names := by
  cases climbs <;> simp [normal, spelling, Component.text, Function.comp_def]

/-- A normalized path as text. The root alone is a slash. -/
theorem toList_render_normal (climbs : Bool) (names : List String) :
    (render (normal climbs names)).toList =
      if climbs = false ∧ names = [] then ['/'] else spell climbs names := by
  split
  · rename_i h
    obtain ⟨rfl, rfl⟩ := h
    rfl
  · rename_i h
    have hne : normal climbs names ≠ [.root] := by
      cases climbs <;> simp_all [normal]
    rw [render.eq_def]
    split
    · rename_i he
      exact absurd he hne
    · rw [toList_intercalate, List.map_map, map_text_normal, spell]

theorem spelling_append (climbs : Bool) (a b : List String) :
    spelling climbs (a ++ b) = spelling climbs a ++ b.map String.toList := by
  simp [spelling]

theorem spelling_ne_nil (climbs : Bool) (names : List String) : spelling climbs names ≠ [] := by
  simp [spelling]

/-- The spelling of a place goes on with that of what lies below. -/
theorem spell_append (climbs : Bool) (a b : List String) :
    spell climbs (a ++ b) = spell climbs a ++ spell false b := by
  by_cases hb : b = []
  · subst hb
    simp [spell, spelling, Text.joinWith]
  · have hmap : b.map String.toList ≠ [] := by simpa using hb
    rw [spell, spelling_append, Text.joinWith_append '/' (spelling_ne_nil climbs a) hmap, spell, spell,
      spelling]
    exact congrArg _ (Text.joinWith_cons '/' [] hmap).symm

theorem splitOn_spell (climbs : Bool) {names : List String} (h : ∀ name ∈ names, IsName name) :
    Text.splitOn '/' (spell climbs names) = spelling climbs names := by
  refine Text.splitOn_joinWith (fun piece hp => ?_) (spelling_ne_nil climbs names)
  simp only [spelling, List.mem_append, List.mem_cons, List.mem_map] at hp
  rcases hp with (rfl | hp) | ⟨name, hm, rfl⟩
  · simp
  · cases climbs <;> simp_all
  · exact (h name hm).noSlash

theorem placeOf_append (a b : List (List Char)) :
    placeOf (a ++ b) = (b.filterMap ofPiece?).foldl down (placeOf a) := by
  rw [placeOf, List.filterMap_append, List.foldl_append]
  rfl

/-- Names lead on from a place. -/
theorem placeOf_append_names (a : List (List Char)) {names : List String}
    (h : ∀ name ∈ names, IsName name) :
    placeOf (a ++ names.map String.toList) = placeOf a ++ names := by
  rw [placeOf_append]
  generalize placeOf a = place
  induction names generalizing place with
  | nil => simp
  | cons name names ih =>
    obtain ⟨hname, hrest⟩ := List.forall_mem_cons.mp h
    rw [List.map_cons, List.filterMap_cons_some hname.isComponent, List.foldl_cons, ih hrest]
    simp [down]

theorem head?_spell (climbs : Bool) {names : List String} (h : names ≠ []) :
    (spell climbs names).head? = some '/' := by
  obtain ⟨first, rest, rfl⟩ := List.exists_cons_of_ne_nil h
  cases climbs <;> rfl

/-- **A spelled place is denoted by its spelling.** -/
theorem place_spell (climbs : Bool) {names : List String} (h : ∀ name ∈ names, IsName name)
    (hne : names ≠ []) {path : String} (hp : path.toList = spell climbs names) : place path = names := by
  have hfront : placeOf ([] :: if climbs then [['.', '.']] else []) = [] := by cases climbs <;> rfl
  rw [place_of_absolute (by rw [hp, head?_spell climbs hne]), hp, splitOn_spell climbs h, spelling,
    placeOf_append_names _ h, hfront, List.nil_append]

/-! ## Projects -/

theorem inProject?_eq_some_iff {path root tail : String} (hquery : '?' ∉ path.toList)
    (hback : '\\' ∉ path.toList) : inProject? path root = some tail ↔
      path.toList = Text.dropRight '/' root.toList ++ tail.toList ∧
        tail.toList.head? = some '/' := by
  have hbare : path.toList.takeWhile (· != '?') = path.toList :=
    List.takeWhile_eq_self_iff.mpr fun c hc => by
      simpa using ne_of_mem_of_not_mem hc hquery
  rw [inProject?, hbare]
  cases hb : Text.behind? (Text.dropRight '/' root.toList) path.toList with
  | none =>
    refine ⟨fun h => (by cases h), fun ⟨happ, _⟩ => ?_⟩
    rw [Text.behind?_eq_some_iff.mpr happ] at hb
    cases hb
  | some rest =>
    have happ := Text.behind?_eq_some_iff.mp hb
    have hkeep : Text.replaceChar '\\' '/' rest = rest :=
      Text.replaceChar_of_notMem fun hm => hback (happ ▸ List.mem_append_right _ hm)
    rw [happ, List.append_cancel_left_eq]
    match rest, hkeep with
    | [], _ =>
      refine ⟨fun h => (by cases h), fun ⟨h, hhead⟩ => ?_⟩
      rw [← h] at hhead
      cases hhead
    | c :: rest, hkeep =>
      by_cases hc : c = '/'
      · subst hc
        simp only [hkeep, Option.some.injEq, ← String.toList_inj, String.toList_ofList]
        exact ⟨fun h => ⟨h, by rw [← h]; rfl⟩, fun h => h.1⟩
      · refine ⟨fun h => ?_, fun ⟨h, hhead⟩ => ?_⟩
        · simp [hc] at h
        · rw [← h] at hhead
          exact absurd (Option.some.inj hhead) hc

theorem below?_eq_some_iff {directory place : List String} {tail : String} :
    below? directory place = some tail ↔
      ∃ rest, rest ≠ [] ∧ place = directory ++ rest ∧ tail.toList = spell false rest := by
  rw [below?]
  split
  · rename_i h
    obtain ⟨⟨rest, rfl⟩, hne⟩ := h
    have htail : Text.joinWith '/' ([] :: rest.map String.toList) = spell false rest := rfl
    rw [List.drop_left, htail, Option.some.injEq, ← String.toList_inj, String.toList_ofList]
    constructor
    · exact fun h => ⟨rest, fun he => hne (by simp [he]), rfl, h.symm⟩
    · rintro ⟨rest', -, he, h⟩
      rw [h, List.append_cancel_left he]
  · rename_i h
    refine ⟨fun h => (by cases h), ?_⟩
    rintro ⟨rest, hrest, rfl, -⟩
    exact absurd ⟨List.prefix_append _ _, by simpa using hrest⟩ h

/-- Pieces that are no names lead nowhere from the root. -/
theorem placeOf_eq_nil {pieces : List (List Char)}
    (h : ∀ piece ∈ pieces, ofPiece? piece = none ∨ ofPiece? piece = some .parent) :
    placeOf pieces = [] := by
  rw [placeOf]
  induction pieces with
  | nil => rfl
  | cons piece pieces ih =>
    obtain ⟨hpiece, hrest⟩ := List.forall_mem_cons.mp h
    rcases hpiece with hp | hp
    · rw [List.filterMap_cons_none hp]
      exact ih hrest
    · rw [List.filterMap_cons_some hp]
      exact ih hrest

/-- Slashes at the end of a path lead nowhere. -/
theorem place_dropRight {root : String} (h : root.toList.head? = some '/') :
    place root = placeOf (Text.splitOn '/' (Text.dropRight '/' root.toList)) := by
  obtain ⟨n, hn⟩ := Text.splitOn_dropRight '/' root.toList
  have hnone : (List.replicate n ([] : List Char)).filterMap ofPiece? = [] :=
    List.filterMap_eq_nil_iff.mpr fun piece hp => by rw [List.eq_of_mem_replicate hp]; rfl
  rw [place_of_absolute h, hn, placeOf_append, hnone]
  rfl

/-- Where the text of a root is the front of a path, the root lies above the path. -/
theorem exists_below {path root tail : String} {climbs : Bool} {names : List String}
    (hp : path.toList = spell climbs names) (hn : ∀ name ∈ names, IsName name) (hne : names ≠ [])
    (hr : root.toList.head? = some '/')
    (h : path.toList = Text.dropRight '/' root.toList ++ tail.toList)
    (htail : tail.toList.head? = some '/') :
    ∃ rest, rest ≠ [] ∧ names = place root ++ rest := by
  obtain ⟨more, htail⟩ := List.head?_eq_some_iff.mp htail
  have hpieces : spelling climbs names =
      Text.splitOn '/' (Text.dropRight '/' root.toList) ++ Text.splitOn '/' more := by
    rw [← splitOn_spell climbs hn, ← hp, h, htail, Text.splitOn_append_cons]
  rw [place_dropRight hr]
  rw [spelling] at hpieces
  have hfront : ∀ piece ∈ [] :: if climbs then [['.', '.']] else [],
      ofPiece? piece = none ∨ ofPiece? piece = some .parent := by
    cases climbs <;> simp [ofPiece?]
  -- The root ends among the names, or before the first of them.
  rcases List.append_eq_append_iff.mp hpieces with ⟨middle, hroot, hnames⟩ | ⟨middle, hfront', -⟩
  · obtain ⟨above, rest, rfl, rfl, hrest⟩ := List.map_eq_append_iff.mp hnames
    refine ⟨rest, ?_, ?_⟩
    · rintro rfl
      exact Text.splitOn_ne_nil '/' more hrest.symm
    · rw [hroot, placeOf_append_names _ fun name hm => hn name (List.mem_append_left _ hm),
        placeOf_eq_nil hfront, List.nil_append]
  · rw [hfront'] at hfront
    refine ⟨names, hne, ?_⟩
    rw [placeOf_eq_nil fun piece hm => hfront piece (List.mem_append_left _ hm), List.nil_append]

/-- **A path lies in a project by its text as it does by its place**, provided that the root is spelled
as the front of the path is. -/
theorem inProject?_spell {path root : String} {climbs : Bool} {names : List String}
    (hp : path.toList = spell climbs names) (hn : ∀ name ∈ names, IsName name) (hne : names ≠ [])
    (hquery : '?' ∉ path.toList) (hback : '\\' ∉ path.toList)
    (hr : root.toList.head? = some '/') :
    inProject? path root = below? (place root) names ↔
      below? (place root) names = none ∨
        Text.dropRight '/' root.toList = spell climbs (place root) := by
  cases hb : below? (place root) names with
  | none =>
    simp only [true_or, iff_true]
    rw [Option.eq_none_iff_forall_ne_some]
    intro tail h
    obtain ⟨happ, htail⟩ := (inProject?_eq_some_iff hquery hback).mp h
    obtain ⟨rest, hrest, hnames⟩ := exists_below hp hn hne hr happ htail
    have := below?_eq_some_iff.mpr
      ⟨rest, hrest, hnames, String.toList_ofList (l := spell false rest)⟩
    rw [hb] at this
    cases this
  | some tail =>
    obtain ⟨rest, hrest, rfl, htail⟩ := below?_eq_some_iff.mp hb
    rw [inProject?_eq_some_iff hquery hback, hp, spell_append, htail]
    simp [head?_spell false hrest, eq_comm]

end DeferredLog.Path
