import Mathlib.Data.List.Basic
import DeferredLog.FileTree.Resolve
import DeferredLog.Proofs.Path

/-!
# Roots of projects

A specifier is resolved to a path that spells its place, whatever the root looks like. Whether that
path lies in the project is asked of the text of the root, so the two agree only where the root spells
its place, too.

* `FileTree.basePath?_normal`: a specifier leads to a normalized path.
* `FileTree.spell_of_mem_candidates`: the candidates that are files spell their places.
* `FileTree.inProject?_resolve`: when a resolved path lies in the project as its place does.
* `FileTree.inProject?_eq_none_of_dot`: nothing lies in a project whose root is written with a dot.
-/

namespace DeferredLog.FileTree

open DeferredLog.Path

/-! ## Where a specifier leads -/

theorem head?_render_root (rest : List Component) :
    (render (.root :: rest)).toList.head? = some '/' := by
  cases rest with
  | nil => rfl
  | cons c rest =>
    rw [render.eq_def]
    split
    · rfl
    · rw [toList_intercalate]
      rfl

theorem head?_append {directory : String} (h : directory.toList.head? = some '/') (path : String) :
    (Path.append directory path).toList.head? = some '/' := by
  rw [Path.append]
  split
  · assumption
  · split <;> simp [h]

/-- A path with its dots and parents resolved has the components of a normalized one. -/
theorem exists_normal {path : String} (h : path.toList.head? = some '/') :
    ∃ climbs names, render (normalize (components path)) = render (normal climbs names) ∧
      ∀ name ∈ names, IsName name := by
  obtain ⟨climbs, hn, hnames⟩ := normalize_components h
  exact ⟨climbs, place path, by rw [hn], hnames⟩

/-- A specifier leads to a normalized path. -/
theorem basePath?_normal {root specifier importer base : String}
    (hroot : root.toList.head? = some '/') (himporter : importer.toList.head? = some '/')
    (h : basePath? root specifier importer = some base) :
    ∃ climbs names, base = render (normal climbs names) ∧ ∀ name ∈ names, IsName name := by
  have hparent : ∀ directory, parent? (components importer) = some directory →
      (render directory).toList.head? = some '/' := by
    intro directory hd
    rw [components_of_absolute himporter, parent?] at hd
    split at hd
    · rename_i hp
      cases hd
      rcases hrest : (Text.splitOn '/' importer.toList).filterMap ofPiece? with _ | ⟨c, rest⟩
      · rw [hrest] at hp
        cases hp
      · exact head?_render_root _
    · cases hd
  unfold basePath? at h
  dsimp only at h
  split at h
  · cases h
    exact exists_normal (head?_append hroot _)
  -- Both kinds of steps are taken from the directory of the importer.
  all_goals try
    obtain ⟨directory, hd, rfl⟩ := Option.map_eq_some_iff.mp h
    obtain ⟨above, ha, rfl⟩ := Option.map_eq_some_iff.mp hd
    exact exists_normal (head?_append (hparent above ha) _)
  cases h

/-! ## Candidates -/

theorem spell_concat (climbs : Bool) (names : List String) (name : String) :
    spell climbs (names ++ [name]) = spell climbs names ++ '/' :: name.toList := by
  rw [spell_append]
  simp [spell, spelling, Text.joinWith]

/-- The root is no file, however it is spelled. -/
theorem isFile_render_root (tree : FileTree) (climbs : Bool) :
    tree.isFile (render (normal climbs [])) = false := by
  cases climbs
  · have hp : pieces "/" = ["", ""] := by decide
    simp [normal, render, isFile, locate, hp, follow, isDir]
  · have hr : render (normal true []) = "/.." := by decide
    have hp : pieces "/.." = ["", ".."] := by decide
    simp [hr, isFile, locate, hp, follow, isDir]

theorem extension_spelling : ∀ extension ∈ extensions,
    '/' ∉ extension.toList ∧ 2 ≤ extension.toList.length := by
  decide

/-- A path with an extension spells a place. -/
theorem spell_extension (climbs : Bool) {names : List String} (hn : ∀ name ∈ names, IsName name)
    {extension : String} (he : extension ∈ extensions) :
    ∃ climbs' names', (render (normal climbs names) ++ "." ++ extension).toList =
        spell climbs' names' ∧ names' ≠ [] ∧ ∀ name ∈ names', IsName name := by
  obtain ⟨hslash, hlength⟩ := extension_spelling extension he
  have htext : (render (normal climbs names) ++ "." ++ extension).toList =
      (render (normal climbs names)).toList ++ '.' :: extension.toList := by simp
  rw [htext, toList_render_normal]
  rcases List.eq_nil_or_concat' names with rfl | ⟨front, last, rfl⟩
  -- Behind the root the extension makes a name of its own, and with dots a name of dots.
  · refine ⟨false, [(if climbs then ".." else "") ++ "." ++ extension], ?_, by simp, ?_⟩
    · cases climbs <;> simp [spell, spelling, Text.joinWith]
    · refine List.forall_mem_singleton.mpr (isName_of_length ?_ ?_) <;> cases climbs <;>
        simp <;> first | exact hslash | omega
  · refine ⟨climbs, front ++ [last ++ "." ++ extension], ?_, by simp, ?_⟩
    · simp [spell_concat]
    · have hlast := hn last (by simp)
      have hpos := List.length_pos_iff.mpr hlast.ne_nil
      refine List.forall_mem_append.mpr ⟨fun name hm => hn name (List.mem_append_left _ hm),
        List.forall_mem_singleton.mpr (isName_of_length ?_ ?_)⟩
      · simp [hlast.noSlash, hslash]
      · simp
        omega

/-- Only the root is spelled with a slash at its end. -/
theorem getLast?_spell (climbs : Bool) {names : List String} (hn : ∀ name ∈ names, IsName name) :
    (spell climbs names).getLast? ≠ some '/' := by
  rcases List.eq_nil_or_concat' names with rfl | ⟨front, last, rfl⟩
  · cases climbs <;> decide
  · have hlast := hn last (by simp)
    obtain ⟨c, hc⟩ := Option.isSome_iff_exists.mp (List.getLast?_isSome.mpr hlast.ne_nil)
    rw [spell_concat, List.getLast?_append_cons, List.getLast?_cons, hc]
    exact fun h => hlast.noSlash (Option.some.inj h ▸ List.mem_of_getLast? hc)

/-- The path of an index file spells a place. -/
theorem spell_index (climbs : Bool) {names : List String} (hn : ∀ name ∈ names, IsName name)
    {extension : String} (he : extension ∈ extensions) :
    ∃ names', (Path.append (render (normal climbs names)) ("index." ++ extension)).toList =
        spell climbs names' ∧ names' ≠ [] ∧ ∀ name ∈ names', IsName name := by
  obtain ⟨hslash, hlength⟩ := extension_spelling extension he
  refine ⟨names ++ ["index." ++ extension], ?_, by simp, ?_⟩
  · have hrelative : ("index." ++ extension).toList.head? ≠ some '/' := by simp
    have hdirectory := toList_render_normal climbs names
    rw [Path.append, if_neg hrelative, spell_concat]
    split_ifs at hdirectory with hroot
    · obtain ⟨rfl, rfl⟩ := hroot
      simp [hdirectory, spell, spelling, Text.joinWith]
    · have hempty : (render (normal climbs names)).isEmpty = false := by
        rw [Bool.eq_false_iff, ne_eq, String.isEmpty_iff]
        intro he
        have hhead : (render (normal climbs names)).toList.head? = some '/' := head?_render_root _
        rw [he] at hhead
        cases hhead
      rw [if_neg (by simp [hempty, hdirectory, getLast?_spell climbs hn])]
      simp [hdirectory]
  · refine List.forall_mem_append.mpr ⟨hn,
      List.forall_mem_singleton.mpr (isName_of_length ?_ ?_)⟩
    · simp [hslash]
    · simp

/-- The candidates that are files spell their places. -/
theorem spell_of_mem_candidates {tree : FileTree} {climbs : Bool} {names : List String} {path : String}
    (hn : ∀ name ∈ names, IsName name)
    (hm : path ∈ candidates extensions (render (normal climbs names)))
    (hf : tree.isFile path = true) :
    ∃ climbs' names', path.toList = spell climbs' names' ∧ names' ≠ [] ∧
      ∀ name ∈ names', IsName name := by
  rw [candidates, List.mem_append, List.mem_cons, List.mem_map, List.mem_map] at hm
  rcases hm with (rfl | ⟨extension, he, rfl⟩) | ⟨extension, he, rfl⟩
  · have hne : names ≠ [] := by
      rintro rfl
      rw [isFile_render_root] at hf
      cases hf
    exact ⟨climbs, names, by simp [toList_render_normal, hne], hne, hn⟩
  · exact spell_extension climbs hn he
  · exact ⟨climbs, spell_index climbs hn he⟩

/-- What a specifier is resolved to spells its place. -/
theorem spell_resolve {tree : FileTree} {root specifier importer path : String}
    (hroot : root.toList.head? = some '/') (himporter : importer.toList.head? = some '/')
    (h : resolve tree.isFile extensions root specifier importer = some path) :
    ∃ climbs names, path.toList = spell climbs names ∧ names ≠ [] ∧ ∀ name ∈ names, IsName name := by
  obtain ⟨base, hbase, hfind⟩ := Option.bind_eq_some_iff.mp h
  obtain ⟨climbs, names, rfl, hn⟩ := basePath?_normal hroot himporter hbase
  exact spell_of_mem_candidates hn (List.mem_of_find?_eq_some hfind) (List.find?_some hfind)

/-! ## Projects -/

variable {tree : FileTree} {root specifier importer path : String}

/-- **When a resolved path lies in the project as its place does.** What does not lie below the place of
the root is never taken to lie in the project. What lies there does so, by the way from the root to it,
exactly if the text of the root without slashes at its end spells the place of the root: with no dots, no
empty pieces and no steps to the parent, unless the path itself starts with a step above the root. -/
theorem inProject?_resolve (hroot : root.toList.head? = some '/')
    (himporter : importer.toList.head? = some '/')
    (h : resolve tree.isFile extensions root specifier importer = some path)
    (hquery : '?' ∉ path.toList) (hback : '\\' ∉ path.toList) :
    ∃ climbs, path.toList = spell climbs (place path) ∧
      (inProject? path root = below? (place root) (place path) ↔
        below? (place root) (place path) = none ∨
          Text.dropRight '/' root.toList = spell climbs (place root)) := by
  obtain ⟨climbs, names, hp, hne, hn⟩ := spell_resolve hroot himporter h
  rw [place_spell climbs hn hne hp]
  exact ⟨climbs, hp, inProject?_spell hp hn hne hquery hback hroot⟩

/-- A tree with one file, the logger of a project. -/
def loggerTree : FileTree :=
  ⟨[(["w", "src", "logger.ts"], "")], []⟩

/-- A root with a slash at its end spells its place. -/
theorem inProject?_resolve_slash :
    resolve loggerTree.isFile extensions "/w/" "/src/logger" "/w/src/app.js" =
        some "/w/src/logger.ts" ∧
      inProject? "/w/src/logger.ts" "/w/" =
        below? (place "/w/") (place "/w/src/logger.ts") := by
  have hresolve : resolve loggerTree.isFile extensions "/w/" "/src/logger" "/w/src/app.js" =
      some "/w/src/logger.ts" := by decide +kernel
  obtain ⟨climbs, hp, hiff⟩ := inProject?_resolve (by decide) (by decide) hresolve (by decide) (by decide)
  refine ⟨hresolve, hiff.mpr (.inr ?_)⟩
  cases climbs with
  | false => decide +kernel
  | true => exact absurd hp (by decide +kernel)

/-- A root that ends in a dot does not: its logger is found and lies outside of the project. -/
theorem not_forall_inProject?_resolve : ¬ ∀ (tree : FileTree) (root specifier importer path : String),
    root.toList.head? = some '/' → importer.toList.head? = some '/' →
      resolve tree.isFile extensions root specifier importer = some path →
      '?' ∉ path.toList → '\\' ∉ path.toList →
      inProject? path root = below? (place root) (place path) := by
  intro h
  have := h loggerTree "/w/." "/src/logger" "/w/src/app.js" "/w/src/logger.ts" (by decide) (by decide)
    (by decide +kernel) (by decide) (by decide)
  exact absurd this (by decide +kernel)

/-- **Nothing that is resolved lies in a project whose root is written with a dot.** -/
theorem inProject?_eq_none_of_dot (hroot : root.toList.head? = some '/')
    (himporter : importer.toList.head? = some '/')
    (h : resolve tree.isFile extensions root specifier importer = some path)
    (hquery : '?' ∉ path.toList) (hback : '\\' ∉ path.toList)
    (hdot : ['.'] ∈ Text.splitOn '/' root.toList) : inProject? path root = none := by
  obtain ⟨climbs, names, hp, -, hn⟩ := spell_resolve hroot himporter h
  rw [Option.eq_none_iff_forall_ne_some]
  intro tail htail
  obtain ⟨happ, hhead⟩ := (inProject?_eq_some_iff hquery hback).mp htail
  obtain ⟨more, hmore⟩ := List.head?_eq_some_iff.mp hhead
  have hpieces : spelling climbs names =
      Text.splitOn '/' (Text.dropRight '/' root.toList) ++ Text.splitOn '/' more := by
    rw [← splitOn_spell climbs hn, ← hp, happ, hmore, Text.splitOn_append_cons]
  have hmem : ['.'] ∈ spelling climbs names := by
    obtain ⟨n, hn'⟩ := Text.splitOn_dropRight '/' root.toList
    rw [hn'] at hdot
    rw [hpieces]
    refine List.mem_append_left _ ((List.mem_append.mp hdot).resolve_right fun h => ?_)
    cases List.eq_of_mem_replicate h
  simp only [spelling, List.mem_append, List.mem_cons, List.mem_map] at hmem
  rcases hmem with (h | h) | ⟨name, hm, hname⟩
  · cases h
  · cases climbs <;> simp at h
  · have := (hn name hm).isComponent
    rw [hname] at this
    cases this

end DeferredLog.FileTree
