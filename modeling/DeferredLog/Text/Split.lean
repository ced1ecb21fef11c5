/-!
# Splitting text

Cutting a text at a separator character, and taking a fixed beginning or a run of characters off it.
`joinWith_splitOn`: the pieces with the separator between them are the text.
-/

namespace DeferredLog.Text

/-- The pieces of a text between the separators; there is always one more than of them. -/
def splitOn (separator : Char) : List Char → List (List Char)
  | [] => [[]]
  | c :: cs =>
    if c = separator then [] :: splitOn separator cs
    else
      match splitOn separator cs with
      | [] => [[c]]
      | piece :: pieces => (c :: piece) :: pieces

/-- The pieces with a separator between them. -/
def joinWith (separator : Char) : List (List Char) → List Char
  | [] => []
  | [piece] => piece
  | piece :: pieces => piece ++ separator :: joinWith separator pieces

theorem splitOn_ne_nil (separator : Char) (cs : List Char) : splitOn separator cs ≠ [] := by
  induction cs with
  | nil => simp [splitOn]
  | cons c cs ih =>
    rw [splitOn]
    split
    · simp
    · split <;> simp

theorem joinWith_splitOn (separator : Char) (cs : List Char) :
    joinWith separator (splitOn separator cs) = cs := by
  induction cs with
  | nil => rfl
  | cons c cs ih =>
    rw [splitOn]
    have hne := splitOn_ne_nil separator cs
    split
    · rename_i hc
      subst hc
      cases h : splitOn c cs with
      | nil => exact absurd h hne
      | cons piece pieces => simp [joinWith, ← h, ih]
    · split
      · rename_i h
        exact absurd h hne
      · rename_i piece pieces h
        rw [h] at ih
        cases pieces with
        | nil => simpa [joinWith] using ih
        | cons next pieces => simpa [joinWith] using ih

/-- The text behind the given beginning, if it has that beginning. -/
def behind? : List Char → List Char → Option (List Char)
  | [], cs => some cs
  | _ :: _, [] => none
  | p :: ps, c :: cs => if p = c then behind? ps cs else none

theorem behind?_eq_some_iff {front cs rest : List Char} :
    behind? front cs = some rest ↔ cs = front ++ rest := by
  induction front generalizing cs with
  | nil => simp [behind?]
  | cons p ps ih =>
    cases cs with
    | nil => simp [behind?]
    | cons c cs =>
      rw [behind?]
      split
      · rename_i h
        simp [ih, h]
      · rename_i h
        simp only [reduceCtorEq, List.cons_append, List.cons.injEq, false_iff, not_and]
        intro hc
        exact absurd hc.symm h

/-- Whether a word stands anywhere in a text. -/
def hasPart (word : List Char) : List Char → Bool
  | [] => word.isEmpty
  | c :: cs => (behind? word (c :: cs)).isSome || hasPart word cs

theorem hasPart_iff {word cs : List Char} : hasPart word cs = true ↔ word <:+: cs := by
  induction cs with
  | nil => simp [hasPart]
  | cons c cs ih =>
    rw [hasPart, Bool.or_eq_true, ih, List.infix_cons_iff, Option.isSome_iff_exists]
    refine or_congr_left ⟨fun ⟨rest, h⟩ => ?_, fun ⟨rest, h⟩ => ?_⟩
    · exact ⟨rest, (behind?_eq_some_iff.mp h).symm⟩
    · exact ⟨rest, behind?_eq_some_iff.mpr h.symm⟩

/-- The text without the copies of a character at its end. -/
def dropRight (c : Char) (cs : List Char) : List Char :=
  (cs.reverse.dropWhile (· = c)).reverse

/-- The text with one character in the place of another. -/
def replaceChar (old new : Char) (cs : List Char) : List Char :=
  cs.map fun c => if c = old then new else c

end DeferredLog.Text
