import DeferredLog.Patch
import DeferredLog.Proofs.Text.Weave

/-!
# What a patch renders

A patch renders its text with a piece inserted at each offset: the pieces of its insertions there, in
the order in which they were made.

* `Patch.sorted_insert`: insertions are kept in the order of their offsets.
* `Patch.insertions_insertAll`: each edit gives one insertion.
* `Patch.render_eq_weave`: the rendered text.
-/

namespace DeferredLog

open Text (size slice splitAt? weave weaveRest)

/-- An insertion as it is made in a text: at the end of the text if its offset lies past it. -/
def Insertion.within (source : List Char) (insertion : Insertion) : Insertion :=
  ⟨min insertion.offset (size source), insertion.text⟩

namespace Patch

/-- Insertions in the order of their offsets. -/
def Sorted (insertions : List Insertion) : Prop :=
  insertions.Pairwise fun a b => a.offset ≤ b.offset

theorem place_perm (insertion : Insertion) (insertions : List Insertion) :
    (place insertion insertions).Perm (insertion :: insertions) := by
  induction insertions with
  | nil => exact .refl _
  | cons first rest ih =>
    rw [place]
    split
    · exact (ih.cons first).trans (.swap ..)
    · exact .refl _

theorem sorted_place {insertion : Insertion} {insertions : List Insertion} (h : Sorted insertions) :
    Sorted (place insertion insertions) := by
  induction h with
  | nil => exact List.pairwise_singleton ..
  | @cons first rest hfirst hrest ih =>
    rw [place]
    split
    · rename_i hle
      refine .cons (fun other hm => ?_) ih
      rcases List.mem_cons.mp ((place_perm insertion rest).mem_iff.mp hm) with rfl | hm
      · exact hle
      · exact hfirst other hm
    · rename_i hlt
      refine .cons (fun other hm => ?_) (.cons hfirst hrest)
      rcases List.mem_cons.mp hm with rfl | hm
      · omega
      · have := hfirst other hm
        omega

theorem sorted_insert {patch : Patch} (h : Sorted patch.insertions) (offset : Nat)
    (text : List Char) : Sorted (patch.insert offset text).insertions :=
  sorted_place h

/-! ## Edits -/

/-- The patch with some insertions made one after the other. -/
def insertAll (patch : Patch) (edits : List Insertion) : Patch :=
  edits.foldl (fun patch edit => patch.insert edit.offset edit.text) patch

theorem insertAll_cons (patch : Patch) (edit : Insertion) (edits : List Insertion) :
    patch.insertAll (edit :: edits) = (patch.insert edit.offset edit.text).insertAll edits := rfl

theorem insertAll_append (patch : Patch) (a b : List Insertion) :
    patch.insertAll (a ++ b) = (patch.insertAll a).insertAll b :=
  List.foldl_append

@[simp]
theorem source_insertAll (patch : Patch) (edits : List Insertion) :
    (patch.insertAll edits).source = patch.source := by
  induction edits generalizing patch with
  | nil => rfl
  | cons edit edits ih => exact ih (patch.insert edit.offset edit.text)

theorem sorted_insertAll {patch : Patch} (h : Sorted patch.insertions) (edits : List Insertion) :
    Sorted (patch.insertAll edits).insertions := by
  induction edits generalizing patch with
  | nil => exact h
  | cons edit edits ih => exact ih (sorted_insert h edit.offset edit.text)

/-- Each edit gives an insertion. -/
theorem insertions_insertAll (patch : Patch) (edits : List Insertion) :
    (patch.insertAll edits).insertions.Perm
      (edits.map (·.within patch.source) ++ patch.insertions) := by
  induction edits generalizing patch with
  | nil => exact .refl _
  | cons edit edits ih =>
    rw [insertAll_cons, List.map_cons, List.cons_append]
    exact (ih (patch.insert edit.offset edit.text)).trans
      (((place_perm (edit.within patch.source) patch.insertions).append_left _).trans
        List.perm_middle)

/-! ## Rendering -/

/-- What some insertions put at an offset. -/
def pieceOf (insertions : List Insertion) (offset : Nat) : List Char :=
  (insertions.filter (·.offset = offset)).flatMap (·.text)

theorem pieceOf_cons_self (insertion : Insertion) (insertions : List Insertion) :
    pieceOf (insertion :: insertions) insertion.offset =
      insertion.text ++ pieceOf insertions insertion.offset := by
  simp [pieceOf]

theorem pieceOf_cons_of_ne {insertion : Insertion} {insertions : List Insertion} {offset : Nat}
    (h : insertion.offset ≠ offset) :
    pieceOf (insertion :: insertions) offset = pieceOf insertions offset := by
  simp [pieceOf, h]

theorem pieceOf_eq_nil {insertions : List Insertion} {offset : Nat}
    (h : ∀ insertion ∈ insertions, offset < insertion.offset) : pieceOf insertions offset = [] := by
  rw [pieceOf, List.filter_eq_nil_iff.mpr, List.flatMap_nil]
  intro insertion hm
  have := h insertion hm
  simp only [decide_eq_true_eq]
  omega

/-- Whether an offset is a boundary between characters of a text. -/
def Boundary (source : List Char) (offset : Nat) : Prop :=
  ∃ a b, source = a ++ b ∧ size a = offset

/-- Of two boundaries of a text the later one cuts what stands behind the earlier one. -/
theorem Boundary.behind {a b : List Char} {offset : Nat} (h : Boundary (a ++ b) offset)
    (hle : size a ≤ offset) : ∃ m rest, b = m ++ rest ∧ size a + size m = offset := by
  obtain ⟨c, d, he, rfl⟩ := h
  rcases List.append_eq_append_iff.mp he with ⟨m, rfl, rfl⟩ | ⟨m, rfl, rfl⟩
  · exact ⟨m, d, rfl, by simp⟩
  · rw [Text.size_append] at hle
    have hm : m = [] := Decidable.byContradiction fun hne => by
      have := Text.size_pos hne
      omega
    exact ⟨[], b, rfl, by simp [hm]⟩

/-- Without insertions the rest of the text is rendered. -/
theorem renderFrom_nil (a b : List Char) : renderFrom (a ++ b) (size a) [] = b := by
  simpa [renderFrom] using Text.slice_append a b []

/-- The text up to an insertion is rendered before it. -/
theorem renderFrom_cons (a : List Char) {m : List Char} (more : List Char) {insertion : Insertion}
    (hm : size a + size m = insertion.offset) (rest : List Insertion) :
    renderFrom (a ++ (m ++ more)) (size a) (insertion :: rest) =
      m ++ insertion.text ++ renderFrom ((a ++ m) ++ more) (size (a ++ m)) rest := by
  rw [renderFrom, ← hm, Text.slice_append, List.append_assoc a, Text.size_append]

theorem renderFrom_eq_weave {a b : List Char} {insertions : List Insertion}
    (hs : Sorted insertions) (hle : ∀ insertion ∈ insertions, size a ≤ insertion.offset)
    (hb : ∀ insertion ∈ insertions, Boundary (a ++ b) insertion.offset) :
    renderFrom (a ++ b) (size a) insertions = weave (pieceOf insertions) (size a) b := by
  induction hs generalizing a b with
  | nil =>
    have hself : weaveRest (pieceOf []) (size a) b = b := Text.weaveRest_eq_self fun _ _ _ => rfl
    rw [renderFrom_nil, Text.weave_eq, hself]
    rfl
  | @cons insertion rest hfirst _ ih =>
    obtain ⟨m, more, rfl, hm⟩ := (hb insertion List.mem_cons_self).behind
      (hle insertion List.mem_cons_self)
    have ih := ih (a := a ++ m) (b := more) (fun i hi => by
      rw [Text.size_append, hm]
      exact hfirst i hi) (fun i hi => by
      rw [List.append_assoc]
      exact hb i (List.mem_cons_of_mem _ hi))
    have hbefore : ∀ o, size a ≤ o → o < size a + size m →
        pieceOf (insertion :: rest) o = [] := fun o _ ho => pieceOf_eq_nil fun i hi => by
      rcases List.mem_cons.mp hi with rfl | hi
      · omega
      · have := hfirst i hi
        omega
    rw [renderFrom_cons a more hm, ih, Text.weave_append more hbefore, Text.size_append, hm,
      Text.weave_eq, Text.weave_eq, pieceOf_cons_self,
      Text.weaveRest_congr fun o ho => pieceOf_cons_of_ne (Nat.ne_of_lt ho)]
    simp

/-- **A patch renders its text with the pieces of its insertions**, as long as they stand between
characters. -/
theorem render_eq_weave {patch : Patch} (hs : Sorted patch.insertions)
    (hb : ∀ insertion ∈ patch.insertions, Boundary patch.source insertion.offset) :
    patch.render = weave (pieceOf patch.insertions) 0 patch.source :=
  renderFrom_eq_weave (a := []) hs (fun _ _ => Nat.zero_le _) hb

end Patch

end DeferredLog
