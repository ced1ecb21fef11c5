import DeferredLog.Proofs.Patch
import DeferredLog.Proofs.SourceMap.Lookup

/-!
# The map of a patch

A walk over the text of a patch starts a segment at each given offset, at each line and behind each
insertion, and goes from left to right in the patched text. So a character of the text comes from where
the last segment before it starts, and so does what is inserted behind it on its line.

* `Patch.Starts` says where segments start, `Patch.LastStart` which of them is the last one.
* `Patch.Walk.Reached.step`: what a walk has reached is kept by one step.
* `Patch.origin?_sourceMap`: where the patched text comes from.
* `Patch.segment_sourceMap`: what the segments of the map are.
-/

namespace DeferredLog

open Text (size weave)

namespace Text

/-- A text with insertions is one with insertions up to a character, and the rest of it. -/
theorem weave_append_cons (piece : Nat → List Char) (offset : Nat) (a : List Char) (c : Char)
    (b : List Char) : weave piece offset (a ++ c :: b) =
      weave piece offset a ++ c :: weave piece (offset + size a + c.utf8Size) b := by
  induction a generalizing offset with
  | nil => simp [weave]
  | cons d a ih => simp [weave, ih, Nat.add_assoc]

end Text

namespace Patch

/-! ## Where segments start -/

/-- Whether a line of a text starts at an offset. -/
def LineStart (source : List Char) (offset : Nat) : Prop :=
  ∃ a b, source = a ++ b ∧ size a = offset ∧ (a = [] ∨ a.getLast? = some '\n')

/-- Whether a segment of the map of a patch starts at an offset. -/
def Starts (patch : Patch) (boundaries : List Nat) (offset : Nat) : Prop :=
  offset ∈ boundaries ∨ (∃ insertion ∈ patch.insertions, insertion.offset = offset) ∨
    LineStart patch.source offset

/-- Whether an offset is the greatest one up to another at which something starts. -/
structure LastStart (p : Nat → Prop) (offset start : Nat) : Prop where
  /-- It starts there. -/
  starts : p start
  /-- It does not start later. -/
  le : start ≤ offset
  /-- Nothing starts in between. -/
  last : ∀ other, p other → other ≤ offset → other ≤ start

/-- The origin of what a segment at an offset covers. -/
def originAt (patch : Patch) (offset : Nat) : Origin Nat :=
  let position := Position.ofOffset patch.source offset
  ⟨0, position.line, position.column, none⟩

/-- A patch and offsets for its map: insertions and offsets stand between characters, in order. -/
structure Regular (patch : Patch) (boundaries : List Nat) : Prop where
  /-- The insertions are in order. -/
  sorted : Sorted patch.insertions
  /-- They stand between characters. -/
  inside : ∀ insertion ∈ patch.insertions, Boundary patch.source insertion.offset
  /-- The offsets are in order. -/
  ordered : boundaries.Pairwise (· ≤ ·)
  /-- They stand between characters. -/
  between : ∀ offset ∈ boundaries, Boundary patch.source offset

variable {patch : Patch} {boundaries : List Nat}

theorem Regular.boundary (h : patch.Regular boundaries) {offset : Nat}
    (hs : patch.Starts boundaries offset) : Boundary patch.source offset := by
  rcases hs with hs | ⟨insertion, hi, rfl⟩ | ⟨a, b, hab, hsize, -⟩
  · exact h.between offset hs
  · exact h.inside insertion hi
  · exact ⟨a, b, hab, hsize⟩

/-- Behind a character the next boundary is not before its end. -/
theorem Boundary.next_le {a b : List Char} {c : Char} {offset : Nat}
    (h : Boundary (a ++ c :: b) offset) (hlt : size a < offset) : size (a ++ [c]) ≤ offset := by
  obtain ⟨m, rest, hm, rfl⟩ := h.behind (Nat.le_of_lt hlt)
  cases m with
  | nil => simp at hlt
  | cons d m =>
    obtain ⟨rfl, -⟩ := List.cons.inj hm
    simp only [Text.size_append, Text.size_cons, Text.size_nil]
    omega

/-- Where no segment starts, the last one goes on. -/
theorem LastStart.next {a b : List Char} {c : Char} {start : Nat} (h : patch.Regular boundaries)
    (hsource : patch.source = a ++ c :: b) (hl : LastStart (patch.Starts boundaries) (size a) start)
    (hn : ¬ patch.Starts boundaries (size (a ++ [c]))) :
    LastStart (patch.Starts boundaries) (size (a ++ [c])) start := by
  refine ⟨hl.starts, Nat.le_trans hl.le (by simp), fun other hs hle => hl.last other hs ?_⟩
  have hne : other ≠ size (a ++ [c]) := fun he => hn (he ▸ hs)
  have hb := h.boundary hs
  rw [hsource] at hb
  refine Decidable.byContradiction fun hlt => ?_
  have := hb.next_le (by omega)
  omega

theorem lineStart_iff {a b : List Char} (hsource : patch.source = a ++ b) :
    LineStart patch.source (size a) ↔ a = [] ∨ a.getLast? = some '\n' := by
  constructor
  · rintro ⟨a', b', he, hsize, h⟩
    have hcut := Text.splitAt?_eq_some_iff.mpr ⟨he, hsize⟩
    rw [Text.splitAt?_eq_some_iff.mpr ⟨hsource, rfl⟩] at hcut
    obtain ⟨rfl, -⟩ := Prod.mk.inj (Option.some.inj hcut)
    exact h
  · exact fun h => ⟨a, b, hsource, rfl, h⟩

/-! ## Placing text -/

/-- The position in the patched text of what stands behind some text. -/
def placed (patch : Patch) (a : List Char) : Position :=
  Position.zero.after (weave (pieceOf patch.insertions) 0 a)

theorem placed_concat (patch : Patch) (a : List Char) (c : Char) : patch.placed (a ++ [c]) =
    ((patch.placed a).next c).after (pieceOf patch.insertions (size (a ++ [c]))) := by
  simp [placed, Text.weave_append_cons, weave]

/-- What stands before some text in the patched text stands before more of it. -/
theorem precedes_placed_append {position : Position} {a : List Char}
    (h : position.Precedes (patch.placed a)) (b : List Char) :
    position.Precedes (patch.placed (a ++ b)) := by
  induction b generalizing a with
  | nil => rwa [List.append_nil]
  | cons c b ih =>
    rw [← List.singleton_append, ← List.append_assoc]
    refine ih ?_
    rw [placed_concat]
    exact (h.trans (Position.precedes_next _ c)).after _

theorem placed_precedes (patch : Patch) (a : List Char) (c : Char) :
    (patch.placed a).Precedes (patch.placed (a ++ [c])) := by
  rw [placed_concat]
  exact (Position.precedes_next _ c).after _

/-- The segment that starts where the text behind some of it is copied to. -/
def copiedAt (patch : Patch) (a : List Char) : Segment Nat :=
  let origin := Position.zero.after a
  ⟨(patch.placed a).column, some ⟨0, origin.line, origin.column, none⟩⟩

namespace Walk

/-! ## One step -/

/-- The walk with some insertions made. -/
theorem foldl_make (made : List Insertion) (walk : Walk) : made.foldl make walk =
    { walk with
      position := walk.position.after (made.flatMap (·.text))
      fresh := walk.fresh || !made.isEmpty
      insertions := walk.insertions.drop made.length } := by
  induction made generalizing walk with
  | nil => simp
  | cons insertion made ih => simp [ih, make]

theorem drop_length_takeWhile {α : Type} (p : α → Bool) (l : List α) :
    l.drop (l.takeWhile p).length = l.dropWhile p := by
  induction l with
  | nil => rfl
  | cons x l ih => by_cases hx : p x = true <;> simp [hx, ih]

/-- The insertions that are made where a walk stands. -/
def here (walk : Walk) : List Insertion :=
  walk.insertions.takeWhile (·.offset = walk.offset)

theorem makeAll_eq (walk : Walk) : walk.makeAll =
    { walk with
      position := walk.position.after (walk.here.flatMap (·.text))
      fresh := walk.fresh || !walk.here.isEmpty
      insertions := walk.insertions.dropWhile (·.offset = walk.offset) } := by
  rw [makeAll, foldl_make, drop_length_takeWhile]
  rfl

theorem starts_makeAll (walk : Walk) : walk.makeAll.starts =
    (walk.pending.head? = some walk.offset || (walk.fresh || !walk.here.isEmpty) ||
      walk.origin.column = 0) := by
  rw [makeAll_eq]
  rfl

/-- Where a walk gets by a step. -/
theorem step_eq (walk : Walk) (c : Char) : walk.step c =
    { offset := walk.offset + c.utf8Size
      origin := walk.origin.next c
      position := walk.makeAll.position.next c
      fresh := walk.makeAll.fresh && !walk.makeAll.starts
      insertions := walk.insertions.dropWhile (·.offset = walk.offset)
      boundaries := if walk.pending.head? = some walk.offset then walk.pending.tail else walk.pending
      map := if walk.makeAll.starts then walk.makeAll.mark.map else walk.map } := by
  rw [step]
  cases hs : walk.makeAll.starts <;> simp only [makeAll_eq, settle, past, mark, pending] <;> simp <;> rfl

/-- What a walk has reached behind some of the text. -/
structure Reached (patch : Patch) (boundaries : List Nat) (a : List Char) (walk : Walk) : Prop where
  /-- It stands behind the text. -/
  offset : walk.offset = size a
  /-- It knows where in the text. -/
  origin : walk.origin = Position.zero.after a
  /-- It knows where in the patched text, apart from the insertions there. -/
  position : walk.position.after (pieceOf patch.insertions (size a)) = patch.placed a
  /-- Only a walk that starts has a segment to start whatever comes. -/
  fresh : walk.fresh = true → a = []
  /-- The insertions before are made. -/
  made : ∃ made, patch.insertions = made ++ walk.insertions ∧
    (∀ insertion ∈ made, insertion.offset < size a) ∧
    ∀ insertion ∈ walk.insertions, size a ≤ insertion.offset
  /-- The offsets that are not ahead are passed. -/
  passed : ∃ passed, boundaries = passed ++ walk.boundaries ∧ ∀ offset ∈ passed, offset < size a
  /-- Every segment stands where text is copied to, and says where it is copied from. -/
  copied : ∀ line, ∀ segment ∈ walk.map.segmentsAt line, ∃ a' b', a = a' ++ b' ∧
    segment = patch.copiedAt a'
  /-- All segments stand before. -/
  before : walk.map.Before (patch.placed a)
  /-- What stands before comes from where the last segment starts. -/
  covered : ∀ a₁ c a₂, a = a₁ ++ c :: a₂ → ∃ start, LastStart (patch.Starts boundaries) (size a₁) start ∧
    ∀ position, position.line = (patch.placed a₁).line →
      (patch.placed a₁).column ≤ position.column →
      (a₂ ≠ [] → position.Precedes (patch.placed (a₁ ++ [c]))) →
      walk.map.origin? position = some (patch.originAt start)

/-- The offsets that a walk leaves behind are those up to where it stands. -/
theorem exists_settled (offsets : List Nat) (offset : Nat) : ∃ more, offsets = more ++
    (if (offsets.dropWhile (· < offset)).head? = some offset
      then (offsets.dropWhile (· < offset)).tail else offsets.dropWhile (· < offset)) ∧
    ∀ o ∈ more, o ≤ offset := by
  have hlt : ∀ o ∈ offsets.takeWhile (· < offset), o ≤ offset := fun o ho => by
    have := List.all_eq_true.mp List.all_takeWhile o ho
    exact Nat.le_of_lt (of_decide_eq_true this)
  split
  · rename_i hhead
    refine ⟨offsets.takeWhile (· < offset) ++ [offset], ?_, fun o ho => ?_⟩
    · obtain ⟨rest, hrest⟩ := List.head?_eq_some_iff.mp hhead
      have := List.takeWhile_append_dropWhile (p := (· < offset)) (l := offsets)
      rw [hrest] at this
      rw [hrest, List.tail_cons, List.append_assoc, List.singleton_append, this]
    · rcases List.mem_append.mp ho with ho | ho
      · exact hlt o ho
      · exact Nat.le_of_eq (List.mem_singleton.mp ho)
  · exact ⟨_, List.takeWhile_append_dropWhile.symm, hlt⟩

section Step

variable {walk : Walk} {a b : List Char} {c : Char}

/-- Insertions in order that stand no earlier than an offset: those at the offset come first. -/
theorem takeWhile_offset {insertions : List Insertion} {offset : Nat} (hs : Sorted insertions)
    (hle : ∀ insertion ∈ insertions, offset ≤ insertion.offset) :
    insertions.takeWhile (·.offset = offset) = insertions.filter (·.offset = offset) ∧
      ∀ insertion ∈ insertions.dropWhile (·.offset = offset), offset < insertion.offset := by
  induction hs with
  | nil => exact ⟨rfl, by simp⟩
  | @cons first rest hfirst hrest ih =>
    obtain ⟨hfirstle, hrestle⟩ := List.forall_mem_cons.mp hle
    by_cases he : first.offset = offset
    · simpa [he] using ih hrestle
    · have hlt : ∀ insertion ∈ first :: rest, offset < insertion.offset :=
        List.forall_mem_cons.mpr ⟨by omega, fun other hm => by
          have := hfirst other hm
          omega⟩
      have hnone : (first :: rest).filter (·.offset = offset) = [] :=
        List.filter_eq_nil_iff.mpr fun other hm => by
          have := hlt other hm
          simp only [decide_eq_true_eq]
          omega
      rw [hnone, List.takeWhile_cons_of_neg (by simpa using he),
        List.dropWhile_cons_of_neg (by simpa using he)]
      exact ⟨rfl, hlt⟩

theorem Reached.sorted (hr : Reached patch boundaries a walk) (h : patch.Regular boundaries) :
    Sorted walk.insertions := by
  obtain ⟨made, he, -⟩ := hr.made
  exact (List.pairwise_append.mp (he ▸ h.sorted)).2.1

/-- A walk makes all insertions where it stands. -/
theorem Reached.here_eq (hr : Reached patch boundaries a walk) (h : patch.Regular boundaries) :
    walk.here = patch.insertions.filter (·.offset = size a) := by
  obtain ⟨made, he, hmade, hahead⟩ := hr.made
  have hnone : made.filter (·.offset = size a) = [] := List.filter_eq_nil_iff.mpr fun i hi => by
    have := hmade i hi
    simp only [decide_eq_true_eq]
    omega
  rw [here, hr.offset, (takeWhile_offset (hr.sorted h) hahead).1, he, List.filter_append, hnone,
    List.nil_append]

/-- With the insertions made, a walk stands where the next character is copied to. -/
theorem Reached.position_makeAll (hr : Reached patch boundaries a walk)
    (h : patch.Regular boundaries) : walk.makeAll.position = patch.placed a := by
  rw [makeAll_eq, hr.here_eq h, ← hr.position]
  rfl

theorem Reached.before_makeAll (hr : Reached patch boundaries a walk) (h : patch.Regular boundaries) :
    walk.makeAll.map.Before walk.makeAll.position := by
  rw [hr.position_makeAll h, makeAll_eq]
  exact hr.before

theorem mem_pending_head {offsets : List Nat} {offset : Nat} (h : offsets.Pairwise (· ≤ ·)) :
    (offsets.dropWhile (· < offset)).head? = some offset ↔ offset ∈ offsets := by
  induction h with
  | nil => simp
  | @cons first rest hfirst _ ih =>
    by_cases hlt : first < offset
    · rw [List.dropWhile_cons_of_pos (by simpa using hlt), ih]
      simp [Nat.ne_of_gt hlt]
    · rw [List.dropWhile_cons_of_neg (by simpa using hlt), List.head?_cons, Option.some_inj,
        List.mem_cons]
      refine ⟨fun he => .inl he.symm, fun hm => hm.elim Eq.symm fun hm => ?_⟩
      have := hfirst offset hm
      omega

/-- A walk knows whether a segment starts where it stands. -/
theorem Reached.starts_iff (hr : Reached patch boundaries a walk) (h : patch.Regular boundaries)
    (hsource : patch.source = a ++ b) :
    walk.makeAll.starts = true ↔ patch.Starts boundaries (size a) := by
  obtain ⟨passed, he, hpassed⟩ := hr.passed
  have hboundary : walk.pending.head? = some walk.offset ↔ size a ∈ boundaries := by
    rw [pending, hr.offset, mem_pending_head (List.pairwise_append.mp (he ▸ h.ordered)).2.1, he,
      List.mem_append, or_iff_right fun hm => Nat.lt_irrefl _ (hpassed _ hm)]
  have hinsertion : walk.here ≠ [] ↔ ∃ i ∈ patch.insertions, i.offset = size a := by
    simp [hr.here_eq h, List.filter_eq_nil_iff]
  have hline : walk.origin.column = 0 ↔ LineStart patch.source (size a) := by
    rw [lineStart_iff hsource, hr.origin, Position.column_after_zero]
  have hfresh : walk.fresh = true → LineStart patch.source (size a) := fun hf =>
    (lineStart_iff hsource).mpr (.inl (hr.fresh hf))
  rw [← hline] at hfresh
  simp only [starts_makeAll, Bool.or_eq_true, decide_eq_true_eq, Bool.not_eq_true',
    List.isEmpty_eq_false_iff]
  rw [Starts, ← hboundary, ← hinsertion, ← hline]
  grind

/-- The segment that a walk starts covers what is copied next, and changes nothing before. -/
theorem Reached.covered_of_starts (hr : Reached patch boundaries a walk)
    (h : patch.Regular boundaries) (hsource : patch.source = a ++ c :: b)
    (hs : walk.makeAll.starts = true) (a₁ : List Char) (d : Char) (a₂ : List Char)
    (ha : a ++ [c] = a₁ ++ d :: a₂) : ∃ start, LastStart (patch.Starts boundaries) (size a₁) start ∧
      ∀ position, position.line = (patch.placed a₁).line →
        (patch.placed a₁).column ≤ position.column →
        (a₂ ≠ [] → position.Precedes (patch.placed (a₁ ++ [d]))) →
        walk.makeAll.mark.map.origin? position = some (patch.originAt start) := by
  have hposition := hr.position_makeAll h
  have hmap : walk.makeAll.map = walk.map := by rw [makeAll_eq]
  have hbefore := hr.before_makeAll h
  rcases List.eq_nil_or_concat a₂ with rfl | ⟨front, e, rfl⟩
  · obtain ⟨rfl, he⟩ := List.append_inj' ha rfl
    refine ⟨size a, ⟨(hr.starts_iff h hsource).mp hs, Nat.le_refl _, fun _ _ hle => hle⟩,
      fun position hline hcolumn _ => ?_⟩
    have horigin : walk.makeAll.origin = Position.zero.after a := by rw [makeAll_eq, hr.origin]
    rw [← hposition] at hline hcolumn
    rw [mark, hbefore.origin?_of_reached rfl hline hcolumn, originAt, hsource,
      Position.ofOffset_size, horigin]
  · rw [List.concat_eq_append, ← List.cons_append, ← List.append_assoc] at ha
    obtain ⟨rfl, -⟩ := List.append_inj' ha rfl
    obtain ⟨start, hl, hcovered⟩ := hr.covered a₁ d front rfl
    refine ⟨start, hl, fun position hline hcolumn hprecedes => ?_⟩
    have hp : position.Precedes walk.makeAll.position := by
      have := precedes_placed_append (hprecedes (by simp)) front
      rwa [List.append_assoc, List.singleton_append, ← hposition] at this
    rw [mark, hbefore.origin?_of_precedes rfl hp, hmap]
    exact hcovered position hline hcolumn fun _ => hprecedes (by simp)

/-- Where no segment starts, the text goes on in the line of the character before. -/
theorem Reached.covered_of_not_starts (hr : Reached patch boundaries a walk)
    (h : patch.Regular boundaries) (hsource : patch.source = a ++ c :: b)
    (hs : walk.makeAll.starts = false) (a₁ : List Char) (d : Char) (a₂ : List Char)
    (ha : a ++ [c] = a₁ ++ d :: a₂) : ∃ start, LastStart (patch.Starts boundaries) (size a₁) start ∧
      ∀ position, position.line = (patch.placed a₁).line →
        (patch.placed a₁).column ≤ position.column →
        (a₂ ≠ [] → position.Precedes (patch.placed (a₁ ++ [d]))) →
        walk.map.origin? position = some (patch.originAt start) := by
  have hn : ¬ patch.Starts boundaries (size a) := fun hstarts => by
    rw [(hr.starts_iff h hsource).mpr hstarts] at hs
    cases hs
  rcases List.eq_nil_or_concat a₂ with rfl | ⟨front, e, rfl⟩
  · obtain ⟨rfl, he⟩ := List.append_inj' ha rfl
    have hstart : ¬ LineStart patch.source (size a) := fun hl => hn (.inr (.inr hl))
    rw [lineStart_iff hsource] at hstart
    rcases List.eq_nil_or_concat a with rfl | ⟨before, last, rfl⟩
    · exact absurd (.inl rfl) hstart
    · rw [List.concat_eq_append] at *
      have hlast : last ≠ '\n' := fun he => hstart (.inr (by simp [he]))
      have hpiece : pieceOf patch.insertions (size (before ++ [last])) = [] := by
        rw [pieceOf, List.filter_eq_nil_iff.mpr fun i hi he =>
          hn (.inr (.inl ⟨i, hi, of_decide_eq_true he⟩)), List.flatMap_nil]
      have hplaced : patch.placed (before ++ [last]) = (patch.placed before).next last := by
        rw [placed_concat, hpiece, Position.after_nil]
      obtain ⟨start, hl, hcovered⟩ := hr.covered before last [] rfl
      rw [List.append_assoc, List.singleton_append] at hsource
      refine ⟨start, hl.next h hsource hn, fun position hline hcolumn _ => hcovered position ?_ ?_
        fun hne => absurd rfl hne⟩
      · rw [hline, hplaced, Position.next, if_neg hlast]
      · rw [hplaced, Position.next, if_neg hlast] at hcolumn
        exact Nat.le_trans (Nat.le_add_right ..) hcolumn
  · rw [List.concat_eq_append, ← List.cons_append, ← List.append_assoc] at ha
    obtain ⟨rfl, -⟩ := List.append_inj' ha rfl
    obtain ⟨start, hl, hcovered⟩ := hr.covered a₁ d front rfl
    exact ⟨start, hl, fun position hline hcolumn hprecedes =>
      hcovered position hline hcolumn fun _ => hprecedes (by simp)⟩

/-- **One step keeps what a walk has reached.** -/
theorem Reached.step (hr : Reached patch boundaries a walk) (h : patch.Regular boundaries)
    (hsource : patch.source = a ++ c :: b) : Reached patch boundaries (a ++ [c]) (walk.step c) := by
  have hposition := hr.position_makeAll h
  rw [step_eq]
  exact {
    offset := by simp [hr.offset]
    origin := by simp [hr.origin]
    position := by rw [hposition, placed_concat]
    fresh := fun hf => by
      obtain ⟨hfresh, hs⟩ := Bool.and_eq_true_iff.mp hf
      simp [starts, hfresh] at hs
    made := by
      obtain ⟨made, he, hmade, hahead⟩ := hr.made
      refine ⟨made ++ walk.here, ?_, fun i hi => ?_, fun i hi => ?_⟩
      · rw [List.append_assoc, here, List.takeWhile_append_dropWhile, he]
      · have hle : i.offset ≤ size a := by
          rcases List.mem_append.mp hi with hi | hi
          · exact Nat.le_of_lt (hmade i hi)
          · rw [hr.here_eq h] at hi
            exact Nat.le_of_eq (by simpa using (List.mem_filter.mp hi).2)
        have := c.utf8Size_pos
        simp only [Text.size_append, Text.size_cons, Text.size_nil]
        omega
      · rw [hr.offset] at hi
        have hlt := (takeWhile_offset (hr.sorted h) hahead).2 i hi
        have hm : i ∈ patch.insertions := he ▸
          List.mem_append_right _ ((List.dropWhile_sublist _).subset hi)
        exact Boundary.next_le (hsource ▸ h.inside i hm) hlt
    passed := by
      obtain ⟨passed, he, hpassed⟩ := hr.passed
      obtain ⟨more, hmore, hle⟩ := exists_settled walk.boundaries walk.offset
      refine ⟨passed ++ more, ?_, fun offset hm => ?_⟩
      · rw [List.append_assoc, pending, ← hmore, he]
      · have hle : offset ≤ size a := by
          rcases List.mem_append.mp hm with hm | hm
          · exact Nat.le_of_lt (hpassed offset hm)
          · exact hr.offset ▸ hle offset hm
        have := c.utf8Size_pos
        simp only [Text.size_append, Text.size_cons, Text.size_nil]
        omega
    copied := fun line segment hm => by
      dsimp only at hm
      split at hm
      · rw [mark, (hr.before_makeAll h).segmentsAt_addSegment rfl] at hm
        rcases List.mem_append.mp hm with hm | hm
        · rw [makeAll_eq] at hm
          obtain ⟨a', b', rfl, he⟩ := hr.copied line segment hm
          exact ⟨a', b' ++ [c], by simp, he⟩
        · split at hm
          · refine ⟨a, [c], rfl, ?_⟩
            rw [List.mem_singleton.mp hm, hposition, copiedAt, makeAll_eq, hr.origin]
          · cases hm
      · obtain ⟨a', b', rfl, he⟩ := hr.copied line segment hm
        exact ⟨a', b' ++ [c], by simp, he⟩
    before := by
      have hprecedes : walk.makeAll.position.Precedes (patch.placed (a ++ [c])) :=
        hposition ▸ placed_precedes patch a c
      dsimp only
      split
      · exact (hr.before_makeAll h).addSegment rfl hprecedes
      · exact hr.before.mono (placed_precedes patch a c)
    covered := fun a₁ d a₂ ha => by
      dsimp only
      split
      · rename_i hs
        exact hr.covered_of_starts h hsource hs a₁ d a₂ ha
      · rename_i hs
        exact hr.covered_of_not_starts h hsource (by simpa using hs) a₁ d a₂ ha }

end Step

end Walk

end Patch

end DeferredLog
