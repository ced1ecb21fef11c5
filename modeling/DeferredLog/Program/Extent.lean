import DeferredLog.Token.Keyword
import DeferredLog.Tree

/-!
# Where expressions and clauses end

A statement may end without a semicolon: at a line break behind a tree that can end an expression
and before one that cannot continue it. `takeExpression` cuts the trees there, and `takeArrowBody`,
`takeCase` and `clauseEnd` find the ends of an arrow function's expression, of the test of a case
and of an import or export clause. Each comes with the law that what it leaves weighs no more than
what it was given.
-/

namespace DeferredLog

namespace Tree

/-- Whether an expression can end behind the tree. -/
def endsExpression : Tree → Bool
  | .group .. => true
  | .leaf token =>
    match token.kind with
    | .ident => !operatorWords.contains token.text
    | .punct => token.text = "++" || token.text = "--"
    | _ => true

/-- Whether the tree continues an expression across a line break. -/
def continuesExpression : Tree → Bool
  | .group delimiter _ _ _ => delimiter != .brace
  | .leaf token =>
    match token.kind with
    | .template => true
    | .ident => token.text = "in" || token.text = "instanceof"
    | .punct => !(["++", "--", "!", "~", "...", "@", "#"].contains token.text)
    | _ => false

/-- Whether an expression ends between a tree and the next one because of a line break. -/
def breaksBefore (previous : Option Tree) (tree : Tree) : Bool :=
  match previous with
  | none => false
  | some p => tree.newlineBefore && p.endsExpression && !tree.continuesExpression

/-- The trees of an expression whose last tree so far is `previous`, and those behind it. It ends at
a semicolon or at a line break where it cannot go on. -/
def takeExpression (previous : Option Tree) : List Tree → List Tree × List Tree
  | [] => ([], [])
  | tree :: trees =>
    if tree.isPunct ";" || breaksBefore previous tree then ([], tree :: trees)
    else (tree :: (takeExpression (some tree) trees).1, (takeExpression (some tree) trees).2)

@[simp]
theorem takeExpression_append (previous : Option Tree) (trees : List Tree) :
    (takeExpression previous trees).1 ++ (takeExpression previous trees).2 = trees := by
  induction trees generalizing previous with
  | nil => rfl
  | cons tree trees ih =>
    rw [takeExpression]
    split
    · rfl
    · simp [ih]

theorem weights_takeExpression (previous : Option Tree) (trees : List Tree) :
    weights (takeExpression previous trees).1 + weights (takeExpression previous trees).2
      = weights trees := by
  rw [← weights_append, takeExpression_append]

/-- The trees without a semicolon at their front. -/
def skipSemicolon : List Tree → List Tree
  | [] => []
  | tree :: trees => if tree.isPunct ";" then trees else tree :: trees

theorem weights_skipSemicolon_le (trees : List Tree) :
    weights (skipSemicolon trees) ≤ weights trees := by
  cases trees with
  | nil => simp [skipSemicolon]
  | cons tree trees =>
    rw [skipSemicolon]
    split
    · simp
    · exact Nat.le_refl _

/-- The trees behind a word, if it stands at the front. -/
def behindWord? (word : String) : List Tree → Option (List Tree)
  | [] => none
  | tree :: trees => if tree.isIdent word then some trees else none

theorem weights_behindWord?_lt {word : String} {trees rest : List Tree}
    (h : behindWord? word trees = some rest) : weights rest < weights trees := by
  cases trees with
  | nil => simp [behindWord?] at h
  | cons tree trees =>
    have := weight_pos tree
    simp only [behindWord?] at h
    split at h
    · simp only [Option.some.injEq] at h
      subst h
      simp only [weights_cons]
      omega
    · simp at h

/-- The trees without a word at their front. -/
def skipWord (word : String) (trees : List Tree) : List Tree :=
  (behindWord? word trees).getD trees

theorem weights_skipWord_le (word : String) (trees : List Tree) :
    weights (skipWord word trees) ≤ weights trees := by
  unfold skipWord
  cases h : behindWord? word trees with
  | none => simp
  | some rest => exact Nat.le_of_lt (weights_behindWord?_lt h)

/-- The trees behind two words, if they stand at the front. -/
def behindWords? (first second : String) (trees : List Tree) : Option (List Tree) :=
  (behindWord? first trees).bind (behindWord? second)

theorem weights_behindWords?_lt {first second : String} {trees rest : List Tree}
    (h : behindWords? first second trees = some rest) : weights rest < weights trees := by
  obtain ⟨middle, h₁, h₂⟩ := Option.bind_eq_some_iff.mp h
  exact Nat.lt_trans (weights_behindWord?_lt h₂) (weights_behindWord?_lt h₁)

/-! ## Bodies and tests -/

/-- Whether the expression that is the body of an arrow function ends before the tree. -/
def endsArrowBody (tree : Tree) : Bool :=
  tree.isPunct "," || tree.isPunct ";"

/-- The trees of an arrow function's expression, and those behind it. -/
def takeArrowBody (trees : List Tree) : List Tree × List Tree :=
  (trees.takeWhile (!endsArrowBody ·), trees.dropWhile (!endsArrowBody ·))

theorem weights_takeArrowBody (trees : List Tree) :
    weights (takeArrowBody trees).1 + weights (takeArrowBody trees).2 = weights trees := by
  rw [takeArrowBody, ← weights_append, List.takeWhile_append_dropWhile]

/-- The test of a case and the trees behind its colon. The colons of `pending` conditional
expressions do not end it. -/
def takeCase (pending : Nat) : List Tree → Option (List Tree × List Tree)
  | [] => none
  | tree :: trees =>
    if tree.isPunct "?" then (takeCase (pending + 1) trees).map fun r => (tree :: r.1, r.2)
    else if tree.isPunct ":" then
      if pending = 0 then some ([], trees)
      else (takeCase (pending - 1) trees).map fun r => (tree :: r.1, r.2)
    else (takeCase pending trees).map fun r => (tree :: r.1, r.2)

theorem weights_takeCase_lt {pending : Nat} {trees test rest : List Tree}
    (h : takeCase pending trees = some (test, rest)) :
    weights test + weights rest < weights trees := by
  induction trees generalizing pending test rest with
  | nil => simp [takeCase] at h
  | cons tree trees ih =>
    have := weight_pos tree
    have grow : ∀ pending, (takeCase pending trees).map (fun r => (tree :: r.1, r.2))
        = some (test, rest) → weights test + weights rest < weights (tree :: trees) := by
      intro pending h
      obtain ⟨⟨a, b⟩, hr, he⟩ := Option.map_eq_some_iff.mp h
      simp only [Prod.mk.injEq] at he
      obtain ⟨rfl, rfl⟩ := he
      have := ih hr
      simp only [weights_cons]
      omega
    rw [takeCase] at h
    split at h
    · exact grow _ h
    · split at h
      · split at h
        · simp only [Option.some.injEq, Prod.mk.injEq] at h
          obtain ⟨rfl, rfl⟩ := h
          simp only [weights_nil, weights_cons]
          omega
        · exact grow _ h
      · exact grow _ h

/-- The trees before the first group in braces, those inside it, and those behind it. -/
def cutAtBrace : List Tree → Option (List Tree × List Tree × List Tree)
  | [] => none
  | .group .brace _ _ inside :: trees => some ([], inside, trees)
  | tree :: trees => (cutAtBrace trees).map fun r => (tree :: r.1, r.2)

theorem weights_cutAtBrace_lt {trees before inside rest : List Tree}
    (h : cutAtBrace trees = some (before, inside, rest)) :
    weights before + weights inside + weights rest < weights trees := by
  fun_induction cutAtBrace trees generalizing before with
  | case1 => simp at h
  | case2 =>
    simp only [Option.some.injEq, Prod.mk.injEq] at h
    obtain ⟨rfl, rfl, rfl⟩ := h
    simp only [weights_nil, weights_cons, weight]
    omega
  | case3 tree trees _ ih =>
    obtain ⟨⟨a, b, c⟩, hr, he⟩ := Option.map_eq_some_iff.mp h
    simp only [Prod.mk.injEq] at he
    obtain ⟨rfl, rfl, rfl⟩ := he
    have := ih hr
    simp only [weights_cons]
    omega

/-! ## Import and export clauses -/

/-- The trees behind the attributes of an import, if there are any: a word and a group in braces. -/
def skipAttributes (trees : List Tree) : List Tree :=
  match trees with
  | word :: .group .brace _ _ _ :: rest =>
    if word.isIdent "with" || word.isIdent "assert" then rest else trees
  | _ => trees

theorem weights_skipAttributes_le (trees : List Tree) :
    weights (skipAttributes trees) ≤ weights trees := by
  unfold skipAttributes
  split
  · split
    · simp only [weights_cons]
      omega
    · exact Nat.le_refl _
  · exact Nat.le_refl _

/-- The trees behind the module specifier of a clause. Where none is required, the clause also ends
at a semicolon, at a line break behind its first tree, or at the end. -/
def clauseEnd (required first : Bool) : List Tree → Option (List Tree)
  | [] => if required then none else some []
  | tree :: trees =>
    if tree.string?.isSome then some trees
    else if tree.isPunct ";" || (!required && !first && tree.newlineBefore) then
      if required then none else some (tree :: trees)
    else clauseEnd required false trees

theorem weights_clauseEnd_le {required first : Bool} {trees rest : List Tree}
    (h : clauseEnd required first trees = some rest) : weights rest ≤ weights trees := by
  induction trees generalizing first with
  | nil =>
    rw [clauseEnd] at h
    split at h <;> simp_all
  | cons tree trees ih =>
    rw [clauseEnd] at h
    rw [weights_cons]
    split at h
    · simp_all
    · split at h
      · split at h
        · simp at h
        · simp only [Option.some.injEq] at h
          simp [← h]
      · exact Nat.le_trans (ih h) (Nat.le_add_left ..)

end Tree

end DeferredLog
