import Mathlib.Data.List.Basic
import DeferredLog.Proofs.Path

/-!
# Where normalized paths lead

A path leads from a directory to a place, whether it starts at the root or not. A normalized path has no
dots, and steps to the parent only before its names. From the root it leads where the path does, and from
a directory too, as long as the path climbs at most one step above that directory. Of more steps one is
left if their number is odd and none if it is even, because a step to the parent takes off the one before
it like a name.

* `Path.foldl_down`: how much of a directory is left behind a path, and what is added to it.
* `Path.normalize_eq`: the components of a normalized path.
* `Path.resolve_normalized`: when a normalized path leads where the path does, and its form.
-/

namespace DeferredLog.Path

/-- The place that a path leads to from a directory. -/
def resolve (directory : List String) (path : String) : List String :=
  (components path).foldl down directory

/-- A path with its dots and parents resolved, as text. -/
def normalized (path : String) : String :=
  render (normalize (components path))

/-- How far a path climbs above the directory from which it is followed. The root has nothing above
it. -/
def climb : List Component → Nat
  | [] | .root :: _ => 0
  | .current :: rest => climb rest
  | .parent :: rest => climb rest + 1
  | .name _ :: rest => climb rest - 1

example : climb (components "a/../../b/../../c") = 2 := by decide +kernel

/-- The components of a path without what it starts with. -/
def steps (path : String) : List Component :=
  (Text.splitOn '/' path.toList).filterMap ofPiece?

/-- The root, if a path starts there. -/
def anchor (path : String) : List Component :=
  if path.toList.head? = some '/' then [.root] else []

/-- The components of a normalized path behind the root, if it starts there: it may start with one step
to the parent. -/
def relative (climbs : Bool) (names : List String) : List Component :=
  (if climbs then [.parent] else []) ++ names.map .name

variable {path : String} {directory names : List String} {climbs : Bool} {rest : List Component}

/-! ## Steps -/

/-- A component that is a step: to the parent, or down to a name. -/
def IsStep (component : Component) : Prop :=
  component = .parent ∨ ∃ name, component = .name name ∧ IsName name

theorem isStep_of_mem_steps : ∀ c ∈ steps path, IsStep c := by
  intro c hc
  obtain ⟨piece, hp, hc⟩ := List.mem_filterMap.mp hc
  exact ofPiece?_cases (Text.notMem_of_mem_splitOn hp) hc

/-- **A path cuts as much off a directory as it climbs**, and goes down from there as it does from the
root. -/
theorem foldl_down (h : ∀ c ∈ rest, IsStep c) (directory : List String) :
    rest.foldl down directory =
      directory.take (directory.length - climb rest) ++ rest.foldl down [] := by
  induction rest generalizing directory with
  | nil => simp [climb]
  | cons c rest ih =>
    obtain ⟨hc, hrest⟩ := List.forall_mem_cons.mp h
    rw [List.foldl_cons, List.foldl_cons, ih hrest]
    rcases hc with rfl | ⟨name, rfl, -⟩
    · simp only [down, climb, List.dropLast_nil, List.length_dropLast]
      rw [List.dropLast_eq_take, List.take_take, Nat.min_eq_left (Nat.sub_le _ _),
        show directory.length - 1 - climb rest = directory.length - (climb rest + 1) by omega]
    · -- The new name is cut off again as soon as the rest climbs at all.
      rw [ih hrest (down [] (.name name)), ← List.append_assoc]
      refine congrArg (· ++ _) ?_
      simp only [down, climb, List.nil_append, List.length_append, List.length_singleton]
      rcases Nat.eq_zero_or_pos (climb rest) with hz | hpos
      · rw [hz, Nat.sub_zero, Nat.zero_sub, Nat.sub_zero, Nat.sub_zero, List.take_length,
          List.take_of_length_le (by simp), List.take_of_length_le (by simp)]
      · rw [List.take_append_of_le_length (by omega), show 1 - climb rest = 0 by omega,
          List.take_zero, List.append_nil]
        congr 1
        omega

/-- The place that a path denotes is the one that its steps lead to from the root. -/
theorem place_eq (path : String) : place path = (steps path).foldl down [] := by
  rw [place, components, List.foldl_append, start, steps]
  split
  · rfl
  · split <;> rfl

theorem isName_of_mem_place : ∀ name ∈ place path, IsName name := by
  obtain ⟨-, -, hnames⟩ :=
    foldl_step_normal (@isStep_of_mem_steps path) false (List.forall_mem_nil IsName)
  rwa [place_eq]

theorem climb_components :
    climb (components path) = if path.toList.head? = some '/' then 0 else climb (steps path) := by
  rw [components, start]
  split
  · rfl
  · split <;> rfl

theorem resolve_of_absolute (h : path.toList.head? = some '/') (directory : List String) :
    resolve directory path = place path := by
  rw [resolve, place, components_of_absolute h, List.foldl_cons, List.foldl_cons]
  rfl

theorem resolve_of_relative (h : path.toList.head? ≠ some '/') (directory : List String) :
    resolve directory path =
      directory.take (directory.length - climb (steps path)) ++ place path := by
  rw [place_eq, ← foldl_down isStep_of_mem_steps, resolve, components, List.foldl_append, start, if_neg h]
  split <;> rfl

/-! ## Normalized paths -/

theorem anchor_cases (path : String) : anchor path = [] ∨ anchor path = [.root] := by
  unfold anchor
  split
  · exact .inr rfl
  · exact .inl rfl

theorem relative_concat (climbs : Bool) (names : List String) (name : String) :
    relative climbs (names ++ [name]) = relative climbs names ++ [.name name] := by
  simp [relative]

/-- A step to the parent at the start of a normalized path appears and disappears. -/
theorem foldl_step_relative {front : List Component} (hf : front = [] ∨ front = [.root])
    (h : ∀ c ∈ rest, IsStep c) (climbs : Bool) (names : List String) :
    rest.foldl step (front ++ relative climbs names) =
      front ++ relative (climbs ^^ decide ((climb rest - names.length) % 2 = 1))
        (rest.foldl down names) := by
  induction rest generalizing climbs names with
  | nil => simp [climb]
  | cons c rest ih =>
    obtain ⟨hc, hrest⟩ := List.forall_mem_cons.mp h
    rw [List.foldl_cons, List.foldl_cons]
    rcases hc with rfl | ⟨name, rfl, -⟩
    · rcases List.eq_nil_or_concat' names with rfl | ⟨names, last, rfl⟩
      · have hstep : step (front ++ relative climbs []) .parent = front ++ relative (!climbs) [] := by
          rcases hf with rfl | rfl <;> cases climbs <;> rfl
        have hparity : ((!climbs) ^^ decide ((climb rest - 0) % 2 = 1)) =
            (climbs ^^ decide ((climb rest + 1 - 0) % 2 = 1)) := by
          rcases Nat.mod_two_eq_zero_or_one (climb rest) with he | he <;> cases climbs <;>
            simp [Nat.add_mod, he]
        rw [hstep, ih hrest, List.length_nil, hparity]
        rfl
      · have hstep : step (front ++ relative climbs (names ++ [last])) .parent =
            front ++ relative climbs names := by
          rw [relative_concat, ← List.append_assoc]
          simp [step, hasParent]
        rw [hstep, ih hrest]
        simp [climb, down]
    · have hstep : step (front ++ relative climbs names) (.name name) =
          front ++ relative climbs (names ++ [name]) := by
        rw [relative_concat, ← List.append_assoc]
        rfl
      rw [hstep, ih hrest]
      simp only [climb, down, List.length_append, List.length_singleton,
        show climb rest - (names.length + 1) = climb rest - 1 - names.length by omega]
      rfl

/-- **The components of a normalized path.** Of the steps above the directory where the path starts one
is left if their number is odd. -/
theorem normalize_eq (path : String) : normalize (components path) =
    anchor path ++ relative (decide (climb (steps path) % 2 = 1)) (place path) := by
  have hstart : (start path.toList).foldl step [] = anchor path ++ relative false [] := by
    rw [start, anchor]
    split
    · rfl
    · split <;> rfl
  rw [normalize, components, List.foldl_append, hstart, place_eq, ← steps]
  have hsteps := foldl_step_relative (anchor_cases path) (@isStep_of_mem_steps path) false []
  simpa using hsteps

/-! ## Texts of normalized paths -/

/-- The pieces between slashes of a normalized path, behind the root if it starts there. -/
def pieces (climbs : Bool) (names : List String) : List (List Char) :=
  (if climbs then [['.', '.']] else []) ++ names.map String.toList

theorem mem_pieces {piece : List Char} (hn : ∀ name ∈ names, IsName name)
    (h : piece ∈ pieces climbs names) : '/' ∉ piece ∧ piece ≠ [] ∧ piece ≠ ['.'] := by
  rcases List.mem_append.mp h with h | h
  · cases climbs
    · cases h
    · rw [if_pos rfl, List.mem_singleton] at h
      subst h
      decide
  · obtain ⟨name, hm, rfl⟩ := List.mem_map.mp h
    have hname := hn name hm
    refine ⟨hname.noSlash, hname.ne_nil, fun he => ?_⟩
    have := hname.isComponent
    rw [he] at this
    cases this

theorem filterMap_pieces (climbs : Bool) (hn : ∀ name ∈ names, IsName name) :
    (pieces climbs names).filterMap ofPiece? = relative climbs names := by
  have hnames : (names.map String.toList).filterMap ofPiece? = names.map .name := by
    rw [List.filterMap_map, ← List.filterMap_eq_map]
    exact List.filterMap_congr fun name hm => (hn name hm).isComponent
  rw [pieces, relative, List.filterMap_append, hnames]
  cases climbs <;> rfl

/-- A normalized path that does not start at the root, as text. -/
theorem toList_render_relative (climbs : Bool) (names : List String) :
    (render (relative climbs names)).toList = Text.joinWith '/' (pieces climbs names) := by
  have hroot : relative climbs names ≠ [.root] := by
    cases climbs
    · cases names <;> simp [relative]
    · simp [relative]
  have htext : (relative climbs names).map (String.toList ∘ Component.text) = pieces climbs names := by
    cases climbs <;> simp [relative, pieces, Component.text, Function.comp_def]
  rw [render.eq_def]
  split
  · rename_i he
    exact absurd he hroot
  · rw [toList_intercalate, List.map_map, htext]

/-- A text of pieces that are not empty does not start with a slash. -/
theorem head?_joinWith {pieces : List (List Char)} (h : ∀ piece ∈ pieces, '/' ∉ piece ∧ piece ≠ []) :
    (Text.joinWith '/' pieces).head? ≠ some '/' := by
  cases pieces with
  | nil => simp [Text.joinWith]
  | cons first more =>
    obtain ⟨hslash, hne⟩ := h first List.mem_cons_self
    obtain ⟨c, cs, rfl⟩ := List.exists_cons_of_ne_nil hne
    have hc : c ≠ '/' := fun he => hslash (he ▸ List.mem_cons_self)
    cases more <;> simpa [Text.joinWith] using hc

/-- The components of a normalized path are found again in its text, and no piece of it is a dot. -/
theorem components_render {front : List Component} (hf : front = [] ∨ front = [.root]) (climbs : Bool)
    (hn : ∀ name ∈ names, IsName name) :
    components (render (front ++ relative climbs names)) = front ++ relative climbs names ∧
      ['.'] ∉ Text.splitOn '/' (render (front ++ relative climbs names)).toList := by
  have hpieces : ∀ piece ∈ pieces climbs names, '/' ∉ piece ∧ piece ≠ [] := fun piece hp =>
    (mem_pieces hn hp).imp_right And.left
  have hdot : ['.'] ∉ pieces climbs names := fun hm => (mem_pieces hn hm).2.2 rfl
  have hcomponents := filterMap_pieces climbs hn
  rcases hf with rfl | rfl
  · have hsplit : Text.splitOn '/' (Text.joinWith '/' (pieces climbs names)) =
        if pieces climbs names = [] then [[]] else pieces climbs names := by
      split
      · rename_i he
        rw [he]
        rfl
      · exact Text.splitOn_joinWith (fun piece hp => (hpieces piece hp).1) ‹_›
    have hfirst : (Text.splitOn '/' (Text.joinWith '/' (pieces climbs names))).head? ≠ some ['.'] := by
      rw [hsplit]
      split
      · simp
      · exact fun he => hdot (List.mem_of_head? he)
    rw [List.nil_append, components, start, toList_render_relative, if_neg (head?_joinWith hpieces),
      if_neg hfirst, List.nil_append, hsplit]
    split
    · rename_i he
      rw [he] at hcomponents
      exact ⟨hcomponents, by simp⟩
    · exact ⟨hcomponents, hdot⟩
  · have hrender := toList_render_normal climbs names
    have hroot : (render (normal climbs names)).toList.head? = some '/' := by
      rw [hrender]
      split
      · rfl
      · cases climbs
        · exact head?_spell false (by simp_all)
        · cases names <;> rfl
    have hsplit : (Text.splitOn '/' (render (normal climbs names)).toList) =
        [] :: if climbs = false ∧ names = [] then [[]] else pieces climbs names := by
      rw [hrender]
      split
      · rfl
      · rw [splitOn_spell climbs hn]
        rfl
    change components (render (normal climbs names)) = normal climbs names ∧
      ['.'] ∉ Text.splitOn '/' (render (normal climbs names)).toList
    rw [components_of_absolute hroot, hsplit]
    split
    · rename_i he
      obtain ⟨rfl, rfl⟩ := he
      exact ⟨rfl, by simp⟩
    · exact ⟨congrArg (.root :: ·) hcomponents, by simpa using hdot⟩

/-- The components of a normalized path, read from its text. -/
theorem components_normalized (path : String) : components (normalized path) =
    anchor path ++ relative (decide (climb (steps path) % 2 = 1)) (place path) := by
  rw [normalized, normalize_eq]
  exact (components_render (anchor_cases path) _ isName_of_mem_place).1

theorem climb_relative (climbs : Bool) (names : List String) :
    climb (relative climbs names) = climbs.toNat := by
  have hnames : climb (names.map .name) = 0 := by
    induction names with
    | nil => rfl
    | cons name names ih => simp [climb, ih]
  cases climbs <;> simp [relative, climb, hnames]

theorem foldl_down_relative (climbs : Bool) (names : List String) :
    (relative climbs names).foldl down [] = names := by
  have hnames : ∀ place : List String, (names.map .name).foldl down place = place ++ names := by
    induction names with
    | nil => simp
    | cons name names ih => simp [down, ih]
  cases climbs <;> simp [relative, down, hnames]

theorem isStep_of_mem_relative (hn : ∀ name ∈ names, IsName name) :
    ∀ c ∈ relative climbs names, IsStep c := by
  intro c hc
  rcases List.mem_append.mp hc with hc | hc
  · cases climbs
    · cases hc
    · exact .inl (List.mem_singleton.mp hc)
  · obtain ⟨name, hm, rfl⟩ := List.mem_map.mp hc
    exact .inr ⟨name, rfl, hn name hm⟩

theorem normalize_relative {front : List Component} (hf : front = [] ∨ front = [.root]) (climbs : Bool)
    (hn : ∀ name ∈ names, IsName name) :
    normalize (front ++ relative climbs names) = front ++ relative climbs names := by
  have hfront : front.foldl step [] = front ++ relative false [] := by
    rcases hf with rfl | rfl <;> rfl
  rw [normalize, List.foldl_append, hfront, foldl_step_relative hf (isStep_of_mem_relative hn),
    climb_relative, foldl_down_relative]
  cases climbs <;> rfl

/-- No name stands before a step to the parent in a normalized path. -/
theorem not_infix_relative {front : List Component} (hf : front = [] ∨ front = [.root]) (climbs : Bool)
    (names : List String) (name : String) :
    ¬ [.name name, .parent] <:+: front ++ relative climbs names := by
  rintro ⟨before, behind, h⟩
  have hparents : ∀ c ∈ names.map Component.name, c ≠ .parent := by simp
  -- The two would stand among the names, which hold no step, or the name would stand before them.
  rw [List.append_assoc, relative, ← List.append_assoc front] at h
  rcases List.append_eq_append_iff.mp h with ⟨middle, hmiddle, hrest⟩ | ⟨middle, hmiddle, hrest⟩
  · match middle, hrest with
    | [], hrest =>
      have hbehind : .name name :: .parent :: behind = names.map Component.name := hrest
      exact hparents .parent (hbehind ▸ List.mem_cons_of_mem _ List.mem_cons_self) rfl
    | [c], hrest =>
      have hbehind : .parent :: behind = names.map Component.name := (List.cons.inj hrest).2
      exact hparents .parent (hbehind ▸ List.mem_cons_self) rfl
    | c :: d :: middle, hrest =>
      have hc : Component.name name ∈ front ++ if climbs then [.parent] else [] := by
        rw [hmiddle, ← (List.cons.inj hrest).1]
        simp
      rcases hf with rfl | rfl <;> cases climbs <;> simp at hc
  · exact hparents .parent (by rw [hrest]; simp) rfl

/-! ## Where they lead -/

/-- **Where a normalized path leads.** From a directory it leads to the same place as the path exactly if
the path climbs at most one step above the directory, or the directory is not deep enough to tell: paths
from the root do not climb. None of its pieces is a dot, no name stands before a step to the parent, and
normalizing it again changes nothing. -/
theorem resolve_normalized (path : String) (directory : List String) :
    (resolve directory (normalized path) = resolve directory path ↔
      climb (components path) ≤ 1 ∨ directory.length ≤ climb (components path) % 2) ∧
    ['.'] ∉ Text.splitOn '/' (normalized path).toList ∧
    (∀ name, ¬ [.name name, .parent] <:+: components (normalized path)) ∧
    normalized (normalized path) = normalized path := by
  have hcomponents := components_normalized path
  refine ⟨?_, ?_, ?_, ?_⟩
  · rw [climb_components]
    by_cases h : path.toList.head? = some '/'
    · have hnormalized : resolve directory (normalized path) = place path := by
        rw [resolve, hcomponents, anchor, if_pos h]
        exact foldl_down_relative _ _
      simp [hnormalized, resolve_of_absolute h, h]
    · rw [resolve_of_relative h, resolve, hcomponents, anchor, if_neg h, List.nil_append,
        foldl_down (isStep_of_mem_relative isName_of_mem_place), foldl_down_relative, climb_relative,
        List.append_cancel_right_eq, if_neg h]
      have hparity : (decide (climb (steps path) % 2 = 1)).toNat = climb (steps path) % 2 := by
        rcases Nat.mod_two_eq_zero_or_one (climb (steps path)) with he | he <;> simp [he]
      rw [hparity]
      refine ⟨fun he => ?_, fun he => ?_⟩
      · have hlength := congrArg List.length he
        simp only [List.length_take] at hlength
        omega
      · congr 1
        omega
  · rw [normalized, normalize_eq]
    exact (components_render (anchor_cases path) _ isName_of_mem_place).2
  · rw [hcomponents]
    exact not_infix_relative (anchor_cases path) _ _
  · rw [normalized, hcomponents, normalize_relative (anchor_cases path) _ isName_of_mem_place, ← normalize_eq]
    rfl

/-- Two steps above a directory are lost together: the path `../../x` is taken for `x`. -/
theorem not_forall_resolve_normalized : ¬ ∀ (path : String) (directory : List String),
    resolve directory (normalized path) = resolve directory path := by
  intro h
  exact absurd (h "../../x" ["w", "src"]) (by decide +kernel)

end DeferredLog.Path
