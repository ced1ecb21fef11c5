import DeferredLog.Text.Split

/-!
# The pieces of a text

Splitting a text at a separator and joining pieces with it are inverse to each other as long as no
piece contains the separator.

* `Text.splitOn_append_cons`: a separator cuts the pieces of a text into those of two texts.
* `Text.splitOn_joinWith`: the pieces that were joined are found again.
* `Text.splitOn_dropRight`: taking separators off the end of a text takes off empty pieces.
-/

namespace DeferredLog.Text

variable {separator : Char} {cs piece : List Char} {pieces : List (List Char)}

theorem splitOn_of_notMem (h : separator ∉ cs) : splitOn separator cs = [cs] := by
  induction cs with
  | nil => rfl
  | cons c cs ih =>
    rw [List.mem_cons, not_or] at h
    rw [splitOn, if_neg (Ne.symm h.1), ih h.2]

/-- A separator cuts the pieces of a text into those before and those behind it. -/
theorem splitOn_append_cons (separator : Char) (a b : List Char) :
    splitOn separator (a ++ separator :: b) = splitOn separator a ++ splitOn separator b := by
  induction a with
  | nil => simp [splitOn]
  | cons c a ih =>
    rw [List.cons_append, splitOn, splitOn]
    split
    · rw [ih, List.cons_append]
    · rw [ih]
      obtain ⟨first, rest, h⟩ := List.exists_cons_of_ne_nil (splitOn_ne_nil separator a)
      rw [h]
      rfl

theorem splitOn_replicate (separator : Char) (n : Nat) :
    splitOn separator (List.replicate n separator) = List.replicate (n + 1) [] := by
  induction n with
  | zero => rfl
  | succ n ih => rw [List.replicate_succ, splitOn, if_pos rfl, ih, ← List.replicate_succ]

theorem notMem_of_mem_splitOn (h : piece ∈ splitOn separator cs) : separator ∉ piece := by
  induction cs generalizing piece with
  | nil =>
    rw [splitOn, List.mem_singleton] at h
    simp [h]
  | cons c cs ih =>
    rw [splitOn] at h
    split at h
    · rcases List.mem_cons.mp h with rfl | h
      · simp
      · exact ih h
    · rename_i hc
      obtain ⟨first, rest, hs⟩ := List.exists_cons_of_ne_nil (splitOn_ne_nil separator cs)
      rw [hs] at h
      rcases List.mem_cons.mp h with rfl | h
      · rw [List.mem_cons, not_or]
        exact ⟨Ne.symm hc, ih (by simp [hs])⟩
      · exact ih (by simp [hs, h])

theorem joinWith_cons (separator : Char) (first : List Char) (h : pieces ≠ []) :
    joinWith separator (first :: pieces) = first ++ separator :: joinWith separator pieces := by
  cases pieces with
  | nil => exact absurd rfl h
  | cons => rfl

theorem joinWith_append (separator : Char) {before after : List (List Char)} (hb : before ≠ [])
    (ha : after ≠ []) : joinWith separator (before ++ after) =
      joinWith separator before ++ separator :: joinWith separator after := by
  induction before with
  | nil => exact absurd rfl hb
  | cons first before ih =>
    by_cases h : before = []
    · subst h
      exact joinWith_cons separator first ha
    · rw [List.cons_append, joinWith_cons separator first (by simp [h]), ih h,
        joinWith_cons separator first h, List.append_assoc, List.cons_append]

theorem mem_joinWith {c : Char} (h : c ∈ joinWith separator pieces) :
    c = separator ∨ ∃ piece ∈ pieces, c ∈ piece := by
  induction pieces with
  | nil => cases h
  | cons first pieces ih =>
    by_cases hp : pieces = []
    · subst hp
      exact .inr ⟨first, List.mem_cons_self, h⟩
    · rw [joinWith_cons separator first hp, List.mem_append, List.mem_cons] at h
      rcases h with h | h | h
      · exact .inr ⟨first, List.mem_cons_self, h⟩
      · exact .inl h
      · exact (ih h).imp_right fun ⟨piece, hm, hc⟩ => ⟨piece, List.mem_cons_of_mem _ hm, hc⟩

theorem infix_joinWith (separator : Char) (h : piece ∈ pieces) :
    piece <:+: joinWith separator pieces := by
  induction pieces with
  | nil => cases h
  | cons first pieces ih =>
    by_cases hp : pieces = []
    · subst hp
      exact List.mem_singleton.mp h ▸ List.infix_rfl
    · rw [joinWith_cons separator first hp]
      rcases List.mem_cons.mp h with rfl | h
      · exact (List.prefix_append ..).isInfix
      · exact (ih h).trans ((List.suffix_cons ..).trans (List.suffix_append ..)).isInfix

theorem flatten_sublist_joinWith (separator : Char) (pieces : List (List Char)) :
    pieces.flatten.Sublist (joinWith separator pieces) := by
  induction pieces with
  | nil => exact List.nil_sublist _
  | cons first pieces ih =>
    by_cases hp : pieces = []
    · subst hp
      rw [List.flatten_singleton]
      exact List.Sublist.refl _
    · rw [joinWith_cons separator first hp, List.flatten_cons]
      exact (List.Sublist.refl first).append (ih.cons separator)

theorem infix_of_mem_splitOn (h : piece ∈ splitOn separator cs) : piece <:+: cs := by
  have hinfix := infix_joinWith separator h
  rwa [joinWith_splitOn] at hinfix

/-- The pieces are no longer than their text together. -/
theorem length_flatten_splitOn (separator : Char) (cs : List Char) :
    (splitOn separator cs).flatten.length ≤ cs.length := by
  have hsublist := flatten_sublist_joinWith separator (splitOn separator cs)
  rw [joinWith_splitOn] at hsublist
  exact hsublist.length_le

/-- **The pieces that were joined are found again**, if the separator is in none of them. -/
theorem splitOn_joinWith (h : ∀ piece ∈ pieces, separator ∉ piece) (hne : pieces ≠ []) :
    splitOn separator (joinWith separator pieces) = pieces := by
  induction pieces with
  | nil => exact absurd rfl hne
  | cons first pieces ih =>
    obtain ⟨hfirst, hrest⟩ := List.forall_mem_cons.mp h
    by_cases hp : pieces = []
    · subst hp
      exact splitOn_of_notMem hfirst
    · rw [joinWith_cons separator first hp, splitOn_append_cons, splitOn_of_notMem hfirst,
        ih hrest hp]
      rfl

/-- What is taken off the end of a text are copies of a character. -/
theorem dropRight_append (c : Char) (cs : List Char) :
    ∃ n, cs = dropRight c cs ++ List.replicate n c := by
  refine ⟨(cs.reverse.takeWhile (· = c)).length, ?_⟩
  have hall : ∀ d ∈ cs.reverse.takeWhile (· = c), d = c := fun d hd => by
    simpa using List.all_eq_true.mp List.all_takeWhile d hd
  have hsplit := congrArg List.reverse (List.takeWhile_append_dropWhile (p := (· = c)) (l := cs.reverse))
  rw [List.reverse_append, List.reverse_reverse, List.eq_replicate_of_mem hall,
    List.reverse_replicate] at hsplit
  exact hsplit.symm

/-- Only empty pieces are lost with separators at the end of a text. -/
theorem splitOn_dropRight (separator : Char) (cs : List Char) : ∃ n,
    splitOn separator cs = splitOn separator (dropRight separator cs) ++ List.replicate n [] := by
  obtain ⟨n, hn⟩ := dropRight_append separator cs
  cases n with
  | zero =>
    rw [List.replicate_zero, List.append_nil] at hn
    exact ⟨0, by rw [← hn, List.replicate_zero, List.append_nil]⟩
  | succ n =>
    rw [List.replicate_succ] at hn
    have hpieces := splitOn_append_cons separator (dropRight separator cs) (List.replicate n separator)
    rw [← hn, splitOn_replicate] at hpieces
    exact ⟨n + 1, hpieces⟩

theorem replaceChar_of_notMem {old new : Char} (h : old ∉ cs) : replaceChar old new cs = cs := by
  have hkeep : ∀ c ∈ cs, (if c = old then new else c) = id c := fun c hc =>
    if_neg (ne_of_mem_of_not_mem hc h)
  rw [replaceChar, List.map_congr_left hkeep, List.map_id]

end DeferredLog.Text
