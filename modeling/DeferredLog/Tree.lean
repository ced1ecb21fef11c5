import DeferredLog.Fault
import DeferredLog.Token

/-!
# Token trees

The tokens of a program with their delimiters paired up: a leaf is a token, and a group is a
sequence of trees between an opening and a closing token. For a template literal with
substitutions the group runs from its first piece to its last, and the pieces between are leaves.

* `Tree.flatten` gives the tokens of a tree back in order.
* `Tree.weight` counts the tokens of a tree; that of a list is the sum (`weights_append`), so a
  proper part of a list of trees weighs less. Walks over trees end because of it.
-/

namespace DeferredLog

/-- A token, or a sequence of trees between two delimiters. -/
inductive Tree where
  | leaf (token : Token)
  | group (delimiter : Delimiter) (opening closing : Token) (trees : List Tree)
  deriving Repr

namespace Tree

/-- The byte offset of the first character. -/
def start : Tree → Nat
  | .leaf token => token.start
  | .group _ opening _ _ => opening.start

/-- The byte offset just behind the last character. -/
def stop : Tree → Nat
  | .leaf token => token.stop
  | .group _ _ closing _ => closing.stop

/-- The bytes of a tree. -/
def span (tree : Tree) : Span :=
  ⟨tree.start, tree.stop⟩

/-- Whether a line break stands between the tree and the token before it. -/
def newlineBefore : Tree → Bool
  | .leaf token => token.newlineBefore
  | .group _ opening _ _ => opening.newlineBefore

/-- The name that a leaf is. Keywords are names too. -/
def ident? : Tree → Option String
  | .leaf token => if token.kind = .ident then some token.text else none
  | .group .. => none

/-- Whether the tree is the given name. -/
def isIdent (name : String) (tree : Tree) : Bool :=
  tree.ident? = some name

/-- Whether the tree is the given punctuator. -/
def isPunct (text : String) : Tree → Bool
  | .leaf token => token.isPunct text
  | .group .. => false

/-- The string literal that a leaf is. -/
def string? : Tree → Option Token
  | .leaf token => if token.kind = .string then some token else none
  | .group .. => none

/-- The trees inside a group with the given delimiter. -/
def inside? (delimiter : Delimiter) : Tree → Option (List Tree)
  | .leaf _ => none
  | .group d _ _ trees => if d = delimiter then some trees else none

/-- Whether the tree is a dot, behind which a word is a member name. -/
def isDot (tree : Tree) : Bool :=
  tree.isPunct "." || tree.isPunct "?."

mutual

/-- The tokens of a tree in order. -/
def flatten : Tree → List Token
  | .leaf token => [token]
  | .group _ opening closing trees => opening :: (flattenAll trees ++ [closing])

/-- The tokens of a list of trees in order. -/
def flattenAll : List Tree → List Token
  | [] => []
  | tree :: trees => tree.flatten ++ flattenAll trees

end

@[simp]
theorem flattenAll_append (a b : List Tree) : flattenAll (a ++ b) = flattenAll a ++ flattenAll b := by
  induction a with
  | nil => simp [flattenAll]
  | cons tree a ih => simp [flattenAll, ih]

/-! ## Weight -/

mutual

/-- The number of tokens of a tree. -/
def weight : Tree → Nat
  | .leaf _ => 1
  | .group _ _ _ trees => weights trees + 2

/-- The number of tokens of a list of trees. -/
def weights : List Tree → Nat
  | [] => 0
  | tree :: trees => tree.weight + weights trees

end

@[simp]
theorem weight_leaf (token : Token) : (leaf token).weight = 1 := rfl

@[simp]
theorem weight_group (delimiter : Delimiter) (opening closing : Token) (trees : List Tree) :
    (group delimiter opening closing trees).weight = weights trees + 2 := rfl

@[simp]
theorem weights_nil : weights [] = 0 := rfl

@[simp]
theorem weights_cons (tree : Tree) (trees : List Tree) :
    weights (tree :: trees) = tree.weight + weights trees := rfl

@[simp]
theorem weights_append (a b : List Tree) : weights (a ++ b) = weights a + weights b := by
  induction a with
  | nil => simp
  | cons tree a ih => simp [ih, Nat.add_assoc]

theorem weight_pos (tree : Tree) : 0 < tree.weight := by
  cases tree <;> simp [weight]

theorem weights_tail_le (trees : List Tree) : weights trees.tail ≤ weights trees := by
  cases trees <;> simp

/-! ## Pieces -/

/-- The pieces of a list of trees between the separators; there is always one more than of them. -/
def pieces (separator : Tree → Bool) : List Tree → List (List Tree)
  | [] => [[]]
  | tree :: trees =>
    if separator tree then [] :: pieces separator trees
    else
      match pieces separator trees with
      | [] => [[tree]]
      | piece :: rest => (tree :: piece) :: rest

/-- The pieces between commas. -/
def betweenCommas (trees : List Tree) : List (List Tree) :=
  pieces (isPunct ",") trees

theorem weights_pieces_le {separator : Tree → Bool} {trees piece : List Tree}
    (h : piece ∈ pieces separator trees) : weights piece ≤ weights trees := by
  induction trees generalizing piece with
  | nil => simp_all [pieces]
  | cons tree trees ih =>
    rw [pieces] at h
    rw [weights_cons]
    split at h
    · rcases List.mem_cons.mp h with rfl | h
      · simp
      · exact Nat.le_trans (ih h) (Nat.le_add_left ..)
    · split at h
      · simp_all
      · rename_i first rest hp
        rcases List.mem_cons.mp h with rfl | h
        · rw [weights_cons]
          exact Nat.add_le_add_left (ih (hp ▸ List.mem_cons_self)) _
        · exact Nat.le_trans (ih (hp ▸ List.mem_cons_of_mem _ h)) (Nat.le_add_left ..)

/-- The trees before the first separator, and those behind it if there is one. -/
def cutAt (separator : Tree → Bool) : List Tree → List Tree × Option (List Tree)
  | [] => ([], none)
  | tree :: trees =>
    if separator tree then ([], some trees)
    else (tree :: (cutAt separator trees).1, (cutAt separator trees).2)

theorem weights_cutAt_fst_le (separator : Tree → Bool) (trees : List Tree) :
    weights (cutAt separator trees).1 ≤ weights trees := by
  induction trees with
  | nil => simp [cutAt]
  | cons tree trees ih =>
    rw [cutAt]
    split
    · simp
    · simp only [weights_cons]
      omega

theorem weights_cutAt_snd_lt {separator : Tree → Bool} {trees rest : List Tree}
    (h : (cutAt separator trees).2 = some rest) : weights rest < weights trees := by
  induction trees with
  | nil => simp [cutAt] at h
  | cons tree trees ih =>
    have := weight_pos tree
    rw [cutAt] at h
    split at h
    · simp only [Option.some.injEq] at h
      subst h
      simp only [weights_cons]
      omega
    · have := ih h
      simp only [weights_cons]
      omega

end Tree

end DeferredLog
