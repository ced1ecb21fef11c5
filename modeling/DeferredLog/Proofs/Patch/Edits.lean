import DeferredLog.Proofs.Patch

/-!
# Patches made of edits

Edits are made one after the other, at any offsets and in any order. What a patch renders depends on the
order of those at one offset only.

* `Patch.pieceOf_insertAll`: at each offset the pieces of the edits there stand in the order in which they
  were made.
* `Patch.insert_comm`: two edits at different offsets can change places.
* `Patch.length_render`: nothing else is inserted, and nothing gets lost.
* `Patch.render_insertAll`: what is rendered, and when it is the text itself.
-/

namespace DeferredLog

open Text (size weave)

namespace Patch

variable {patch : Patch} {insertions : List Insertion}

/-! ## The order of edits -/

theorem pieceOf_cons (insertion : Insertion) (insertions : List Insertion) (offset : Nat) :
    pieceOf (insertion :: insertions) offset =
      (if insertion.offset = offset then insertion.text else []) ++ pieceOf insertions offset := by
  split
  · rename_i h
    rw [← h, pieceOf_cons_self]
  · rename_i h
    rw [pieceOf_cons_of_ne h, List.nil_append]

/-- A new insertion comes behind those that its offset has already. -/
theorem pieceOf_place (h : Sorted insertions) (insertion : Insertion) (offset : Nat) :
    pieceOf (place insertion insertions) offset =
      pieceOf insertions offset ++ if insertion.offset = offset then insertion.text else [] := by
  induction h with
  | nil =>
    rw [place, pieceOf_cons]
    simp [pieceOf]
  | @cons first rest hfirst _ ih =>
    rw [place]
    split
    · rw [pieceOf_cons, ih, pieceOf_cons, List.append_assoc]
    · rename_i hlt
      rw [pieceOf_cons]
      split
      · rename_i ho
        -- All the others stand behind.
        have hrest : pieceOf (first :: rest) offset = [] := pieceOf_eq_nil fun other hm => by
          rcases List.mem_cons.mp hm with rfl | hm
          · omega
          · have := hfirst other hm
            omega
        rw [hrest, List.append_nil, List.nil_append]
      · rw [List.append_nil, List.nil_append]

/-- At each offset the pieces of the edits there stand in the order in which they were made. -/
theorem pieceOf_insertAll (h : Sorted patch.insertions) (edits : List Insertion) (offset : Nat) :
    pieceOf (patch.insertAll edits).insertions offset =
      pieceOf patch.insertions offset ++ pieceOf (edits.map (·.within patch.source)) offset := by
  induction edits generalizing patch with
  | nil => exact (List.append_nil _).symm
  | cons edit edits ih =>
    rw [insertAll_cons, ih (sorted_insert h ..), List.map_cons, pieceOf_cons, ← List.append_assoc]
    exact congrArg (· ++ _) (pieceOf_place h (edit.within patch.source) offset)

theorem place_comm_of_lt {a b : Insertion} (h : a.offset < b.offset) (insertions : List Insertion) :
    place a (place b insertions) = place b (place a insertions) := by
  have hle : a.offset ≤ b.offset := Nat.le_of_lt h
  have hlt : ¬ b.offset ≤ a.offset := Nat.not_le.mpr h
  induction insertions with
  | nil => simp only [place, if_neg hlt, if_pos hle]
  | cons first rest ih =>
    by_cases hb : first.offset ≤ b.offset
    · by_cases ha : first.offset ≤ a.offset
      · simp only [place, if_pos ha, if_pos hb, ih]
      · simp only [place, if_neg ha, if_pos hb, if_pos hle]
    · have ha : ¬ first.offset ≤ a.offset := by omega
      simp only [place, if_neg ha, if_neg hb, if_neg hlt, if_pos hle]

/-- Insertions at different offsets can change places. -/
theorem place_comm {a b : Insertion} (h : a.offset ≠ b.offset) (insertions : List Insertion) :
    place a (place b insertions) = place b (place a insertions) := by
  rcases Nat.lt_or_gt_of_ne h with hlt | hlt
  · exact place_comm_of_lt hlt insertions
  · exact (place_comm_of_lt hlt insertions).symm

/-- **Two edits at different offsets can change places.** -/
theorem insert_comm {a b : Insertion}
    (h : (a.within patch.source).offset ≠ (b.within patch.source).offset) :
    (patch.insert a.offset a.text).insert b.offset b.text =
      (patch.insert b.offset b.text).insert a.offset a.text := by
  simp only [insert]
  exact congrArg (Patch.mk patch.source) (place_comm (Ne.symm h) patch.insertions)

/-! ## The length of what is rendered -/

theorem length_renderFrom {a b : List Char} (hs : Sorted insertions)
    (hle : ∀ insertion ∈ insertions, size a ≤ insertion.offset)
    (hb : ∀ insertion ∈ insertions, Boundary (a ++ b) insertion.offset) :
    (renderFrom (a ++ b) (size a) insertions).length =
      b.length + (insertions.flatMap (·.text)).length := by
  induction hs generalizing a b with
  | nil => rw [renderFrom_nil, List.flatMap_nil, List.length_nil, Nat.add_zero]
  | @cons insertion rest hfirst _ ih =>
    obtain ⟨m, more, rfl, hm⟩ := (hb insertion List.mem_cons_self).behind
      (hle insertion List.mem_cons_self)
    have ih := ih (a := a ++ m) (b := more) (fun i hi => by
      rw [Text.size_append, hm]
      exact hfirst i hi) (fun i hi => by
      rw [List.append_assoc]
      exact hb i (List.mem_cons_of_mem _ hi))
    rw [renderFrom_cons a more hm, List.length_append, List.length_append, ih, List.length_append,
      List.flatMap_cons, List.length_append]
    omega

/-- Nothing but the pieces is inserted, and no character gets lost. -/
theorem length_render (hs : Sorted patch.insertions)
    (hb : ∀ insertion ∈ patch.insertions, Boundary patch.source insertion.offset) :
    patch.render.length = patch.source.length + (patch.insertions.flatMap (·.text)).length :=
  length_renderFrom (a := []) hs (fun _ _ => Nat.zero_le _) hb

/-- **A patch changes its text exactly if it renders something else.** -/
theorem changes_iff (hs : Sorted patch.insertions)
    (hb : ∀ insertion ∈ patch.insertions, Boundary patch.source insertion.offset) :
    patch.changes = true ↔ patch.render ≠ patch.source := by
  have hempty : patch.changes = false ↔ ∀ insertion ∈ patch.insertions, insertion.text = [] := by
    simp [changes]
  constructor
  · intro hchanges hsame
    have hlength := length_render hs hb
    rw [hsame] at hlength
    have hnil : patch.insertions.flatMap (·.text) = [] := List.length_eq_zero_iff.mp (by omega)
    rw [hempty.mpr fun insertion hm => ?_] at hchanges
    · cases hchanges
    · exact List.flatMap_eq_nil_iff.mp hnil insertion hm
  · refine fun hdiffers => Decidable.byContradiction fun hchanges => hdiffers ?_
    rw [render_eq_weave hs hb]
    refine Text.weave_eq_self fun offset _ _ => List.flatMap_eq_nil_iff.mpr fun insertion hm => ?_
    exact hempty.mp (Bool.eq_false_iff.mpr hchanges) insertion (List.mem_filter.mp hm).1

/-! ## Any edits -/

/-- An edit at a boundary or past the end is made at a boundary. -/
theorem boundary_within {source : List Char} {edit : Insertion}
    (h : Boundary source edit.offset ∨ size source ≤ edit.offset) :
    Boundary source (edit.within source).offset := by
  rcases h with ⟨a, b, rfl, ha⟩ | hle
  · refine ⟨a, b, rfl, ?_⟩
    rw [Insertion.within, ← ha, Nat.min_eq_left]
    rw [Text.size_append]
    exact Nat.le_add_right ..
  · exact ⟨source, [], (List.append_nil _).symm, (Nat.min_eq_right hle).symm⟩

/-- **A patch made of any edits renders the text with their pieces inserted.** At each offset stand the
pieces of the edits that are made there, in their order; the characters of the text stay in theirs, and
there is nothing else. Two edits in a row that are made at different offsets can change places. The patch
counts as a change exactly if it renders something else than the text. -/
theorem render_insertAll {source : List Char} {edits : List Insertion}
    (h : ∀ edit ∈ edits, Boundary source edit.offset ∨ size source ≤ edit.offset) :
    ((of source).insertAll edits).render =
        weave (pieceOf (edits.map (·.within source))) 0 source ∧
      source.Sublist ((of source).insertAll edits).render ∧
      ((of source).insertAll edits).render.length =
        source.length + (edits.flatMap (·.text)).length ∧
      (∀ before first second after, edits = before ++ first :: second :: after →
        (first.within source).offset ≠ (second.within source).offset →
          (of source).insertAll (before ++ second :: first :: after) =
            (of source).insertAll edits) ∧
      (((of source).insertAll edits).changes = true ↔
        ((of source).insertAll edits).render ≠ source) := by
  have hsource : ((of source).insertAll edits).source = source := source_insertAll ..
  have hnone : Sorted (of source).insertions := List.Pairwise.nil
  have hs : Sorted ((of source).insertAll edits).insertions :=
    sorted_insertAll hnone edits
  have hperm : ((of source).insertAll edits).insertions.Perm (edits.map (·.within source)) := by
    have := insertions_insertAll (of source) edits
    rwa [show (of source).insertions = [] from rfl, List.append_nil] at this
  have hb : ∀ insertion ∈ ((of source).insertAll edits).insertions,
      Boundary ((of source).insertAll edits).source insertion.offset := by
    intro insertion hm
    obtain ⟨edit, hedit, rfl⟩ := List.mem_map.mp (hperm.mem_iff.mp hm)
    rw [hsource]
    exact boundary_within (h edit hedit)
  have hpieces : pieceOf ((of source).insertAll edits).insertions =
      pieceOf (edits.map (·.within source)) := by
    funext offset
    exact pieceOf_insertAll hnone edits offset
  have hrender := render_eq_weave hs hb
  have hlength := length_render hs hb
  have hchanges := changes_iff hs hb
  rw [hsource] at hrender hlength hchanges
  rw [hpieces] at hrender
  refine ⟨hrender, ?_, ?_, ?_, hchanges⟩
  · rw [hrender]
    exact Text.sublist_weave ..
  · rw [hlength, (hperm.flatMap_right _).length_eq, List.flatMap_map]
    rfl
  · rintro before first second after rfl hne
    have hswap := @insert_comm ((of source).insertAll before) second first
      (by rw [source_insertAll]; exact Ne.symm hne)
    rw [insertAll_append, insertAll_append, insertAll_cons, insertAll_cons, insertAll_cons,
      insertAll_cons, hswap]

/-- Edits from right to left, two of them at one offset, one past the end and one of nothing. -/
def mixedEdits : List Insertion :=
  [⟨9, ['!']⟩, ⟨3, ['(', ')']⟩, ⟨0, []⟩, ⟨3, ['?']⟩]

theorem render_insertAll_mixed :
    (∀ edit ∈ mixedEdits, Boundary "éa;".toList edit.offset ∨ size "éa;".toList ≤ edit.offset) ∧
      ((of "éa;".toList).insertAll mixedEdits).render = "éa()?;!".toList := by
  have h : ∀ edit ∈ mixedEdits,
      Boundary "éa;".toList edit.offset ∨ size "éa;".toList ≤ edit.offset := by
    simp only [mixedEdits, List.forall_mem_cons, List.not_mem_nil, false_implies, implies_true,
      and_true]
    have hinside : Boundary "éa;".toList 3 := ⟨"éa".toList, ";".toList, by decide, by decide⟩
    exact ⟨.inr (by decide), .inl hinside, .inl ⟨[], "éa;".toList, rfl, rfl⟩, .inl hinside⟩
  refine ⟨h, (render_insertAll h).1.trans ?_⟩
  decide +kernel

end Patch

end DeferredLog
