import DeferredLog.CallSite

/-!
# Finding names

A name is searched for in the text, skipping the characters of each find. No place where the name
stands as a whole is missed, and none before the start of the search is found.

* `CallSite.mem_occurrences`: the places that are found.
* `CallSite.le_of_mem_occurrences`: where they can be.
-/

namespace DeferredLog

open Text (size isNamePart)

namespace CallSite

variable {word cs : List Char} {offset skipped o : Nat} {before : Option Char}

theorem le_of_mem_finds (h : o ∈ finds word offset before skipped cs) : offset ≤ o := by
  induction cs generalizing offset before skipped with
  | nil =>
    rw [finds] at h
    split at h
    · exact Nat.le_of_eq (List.mem_singleton.mp h).symm
    · cases h
  | cons c cs ih =>
    have step : ∀ {skipped}, o ∈ finds word (offset + c.utf8Size) (some c) skipped cs → offset ≤ o :=
      fun h => Nat.le_trans (Nat.le_add_right ..) (ih h)
    cases skipped with
    | succ => exact step h
    | zero =>
      rw [finds] at h
      split at h
      · exact step h
      · rcases List.mem_append.mp h with h | h
        · split at h
          · exact Nat.le_of_eq (List.mem_singleton.mp h).symm
          · cases h
        · exact step h

/-- **A whole name is found**, since a find that reaches into it would have to hold the character
before it. -/
theorem mem_finds {a after : List Char} (hne : word ≠ []) (hword : ∀ c ∈ word, isNamePart c = true)
    (hbefore : (a.getLast?.or before).any isNamePart = false)
    (hafter : after.head?.any isNamePart = false) (hskipped : skipped ≤ a.length) :
    offset + size a ∈ finds word offset before skipped (a ++ (word ++ after)) := by
  induction a generalizing offset before skipped with
  | nil =>
    obtain ⟨w, word, rfl⟩ := List.exists_cons_of_ne_nil hne
    obtain rfl : skipped = 0 := by simpa using hskipped
    have hfound : Text.behind? (w :: word) (w :: (word ++ after)) = some after :=
      Text.behind?_eq_some_iff.mpr rfl
    have hb : before.any isNamePart = false := by simpa using hbefore
    simp [finds, hfound, hb, hafter]
  | cons c a ih =>
    have hbefore' : (a.getLast?.or (some c)).any isNamePart = false := by
      rw [List.getLast?_cons] at hbefore
      cases h : a.getLast? <;> simpa [h] using hbefore
    rw [Text.size_cons, ← Nat.add_assoc, List.cons_append]
    cases skipped with
    | succ => exact ih hbefore' (by simpa using hskipped)
    | zero =>
      rw [finds]
      split
      · exact ih hbefore' (Nat.zero_le _)
      · rename_i rest hrest
        refine List.mem_append_right _ (ih hbefore' ?_)
        have hsplit : (c :: a) ++ (word ++ after) = word ++ rest := Text.behind?_eq_some_iff.mp hrest
        rcases List.append_eq_append_iff.mp hsplit with ⟨m, hm, -⟩ | ⟨m, hm, -⟩
        · -- The find would end inside the name, and hold the character before it.
          have hlast : ∃ d ∈ c :: a, a.getLast?.or (some c) = some d := by
            cases h : a.getLast? with
            | none => exact ⟨c, List.mem_cons_self, rfl⟩
            | some d => exact ⟨d, List.mem_cons_of_mem _ (List.mem_of_getLast? h), rfl⟩
          obtain ⟨d, hd, he⟩ := hlast
          rw [he, Option.any_some, hword d (by rw [hm]; exact List.mem_append_left _ hd)] at hbefore'
          cases hbefore'
        · have := congrArg List.length hm
          simp only [List.length_cons, List.length_append] at this
          omega

/-- **A name that stands as a whole behind the start of the search is found.** -/
theorem mem_occurrences {source before after : List Char} {name : String} {start : Nat}
    (hsource : source = before ++ (name.toList ++ after)) (hne : name.toList ≠ [])
    (hname : ∀ c ∈ name.toList, isNamePart c = true) (hafter : after.head?.any isNamePart = false)
    (hstart : ∃ a b, before = a ++ b ∧ size a = start ∧ b.getLast?.any isNamePart = false) :
    size before ∈ occurrences source name start := by
  obtain ⟨a, b, rfl, rfl, hb⟩ := hstart
  have hsplit : Text.splitAt? (size a) source = some (a, b ++ (name.toList ++ after)) :=
    Text.splitAt?_eq_some_iff.mpr ⟨by rw [hsource, List.append_assoc], rfl⟩
  rw [occurrences, hsplit, Text.size_append]
  exact mem_finds hne hname (by simpa using hb) hafter (Nat.zero_le _)

theorem le_of_mem_occurrences {source : List Char} {name : String} {start : Nat}
    (h : o ∈ occurrences source name start) : start ≤ o := by
  unfold occurrences at h
  split at h
  · cases h
  · exact le_of_mem_finds h

end CallSite

end DeferredLog
