import DeferredLog.Proofs.CallSite.Shape
import DeferredLog.Proofs.Token.LineBreak
import DeferredLog.Proofs.Tree.Alike
import DeferredLog.Proofs.Tree.Map

/-!
# Trees with a line break before a brace

A line break before a brace changes one tree, the one that the brace opens, and of that only whether it
stands on a new line. All that the walk asks of trees without regard to lines has the same answer as
before, and each function that cuts trees by what they are cuts them at the same place. Two look at lines:
an expression ends at the line break if the tree before the brace can end it (`cutsAt`), and a list of
exported names ends there (`clauseCutsAt`).

* `Tree.takeExpression_breakBefore`, `Tree.clauseEnd_breakBefore`: else they end where they did.
* `Outline.form_of_breakBefore`, `Outline.inner_of_breakBefore`: statements, and what is inside an
  expression, are recognised as before.
-/

namespace DeferredLog

namespace Tree

variable {offset size : Nat} {tree : Tree} {trees : List Tree}

/-! ## Single trees -/

/-- The first token of a tree. -/
def first : Tree → Token
  | .leaf token => token
  | .group _ opening _ _ => opening

/-- Whether a tree starts with the brace at an offset. -/
def opensAt (offset : Nat) (tree : Tree) : Bool :=
  tree.first.kind = .openBrace && tree.first.start = offset

/-- A tree with a line break of some size before the brace at an offset. -/
def breakBefore (offset size : Nat) (tree : Tree) : Tree :=
  tree.map (Token.breakBefore offset size)

/-- Trees with a line break of some size before the brace at an offset. -/
def breakBeforeAll (offset size : Nat) (trees : List Tree) : List Tree :=
  mapAll (Token.breakBefore offset size) trees

@[simp]
theorem breakBefore_leaf (token : Token) :
    (leaf token).breakBefore offset size = .leaf (token.breakBefore offset size) := rfl

@[simp]
theorem breakBefore_group (delimiter : Delimiter) (opening closing : Token) (trees : List Tree) :
    (group delimiter opening closing trees).breakBefore offset size =
      .group delimiter (opening.breakBefore offset size) (closing.breakBefore offset size)
        (breakBeforeAll offset size trees) := rfl

@[simp]
theorem breakBeforeAll_nil : breakBeforeAll offset size [] = [] := rfl

@[simp]
theorem breakBeforeAll_cons (tree : Tree) (trees : List Tree) :
    breakBeforeAll offset size (tree :: trees) =
      tree.breakBefore offset size :: breakBeforeAll offset size trees := rfl

@[simp]
theorem breakBeforeAll_append (a b : List Tree) :
    breakBeforeAll offset size (a ++ b) = breakBeforeAll offset size a ++ breakBeforeAll offset size b :=
  mapAll_append _ a b

theorem opensAt_of_ident? {name : String} (h : tree.ident? = some name) : tree.opensAt offset = false := by
  obtain ⟨token, rfl, hk, -⟩ := Tree.ident?_eq_some_iff.mp h
  simp [opensAt, first, hk]

@[simp]
theorem newlineBefore_breakBefore (tree : Tree) :
    (tree.breakBefore offset size).newlineBefore =
      (tree.newlineBefore || tree.opensAt offset) := by
  cases tree <;> rfl

@[simp]
theorem ident?_breakBefore (tree : Tree) :
    (tree.breakBefore offset size).ident? = tree.ident? := by
  cases tree <;> rfl

@[simp]
theorem isIdent_breakBefore (tree : Tree) (name : String) :
    (tree.breakBefore offset size).isIdent name = tree.isIdent name := by
  cases tree <;> rfl

@[simp]
theorem isPunct_breakBefore (tree : Tree) (text : String) :
    (tree.breakBefore offset size).isPunct text = tree.isPunct text := by
  cases tree <;> rfl

@[simp]
theorem string?_isSome_breakBefore (tree : Tree) :
    (tree.breakBefore offset size).string?.isSome = tree.string?.isSome := by
  cases tree with
  | leaf token =>
    rw [breakBefore_leaf, string?, string?, show (token.breakBefore offset size).kind = token.kind from rfl]
    split <;> rfl
  | group => rfl

@[simp]
theorem isGroup_breakBefore (tree : Tree) (delimiter : Delimiter) :
    Outline.isGroup delimiter (tree.breakBefore offset size) =
      Outline.isGroup delimiter tree := by
  cases tree with
  | leaf => rfl
  | group => simp only [Outline.isGroup, breakBefore_group, inside?]; split <;> rfl

@[simp]
theorem isFreeName_breakBefore (tree : Tree) :
    Outline.isFreeName (tree.breakBefore offset size) = Outline.isFreeName tree := by
  cases tree <;> rfl

@[simp]
theorem endsExpression_breakBefore (tree : Tree) :
    (tree.breakBefore offset size).endsExpression = tree.endsExpression := by
  cases tree <;> rfl

@[simp]
theorem continuesExpression_breakBefore (tree : Tree) :
    (tree.breakBefore offset size).continuesExpression = tree.continuesExpression := by
  cases tree <;> rfl

@[simp]
theorem endsArrowBody_breakBefore (tree : Tree) :
    (tree.breakBefore offset size).endsArrowBody = tree.endsArrowBody := by
  cases tree <;> rfl

@[simp]
theorem endsLoopNames_breakBefore (tree : Tree) :
    Outline.endsLoopNames (tree.breakBefore offset size) = Outline.endsLoopNames tree := by
  cases tree <;> rfl

theorem startsWith_breakBefore {p : Tree → Bool}
    (hp : ∀ tree, p (tree.breakBefore offset size) = p tree) (trees : List Tree) :
    Outline.startsWith p (breakBeforeAll offset size trees) = Outline.startsWith p trees := by
  cases trees with
  | nil => rfl
  | cons tree trees => exact hp tree

/-! ## Cuts that do not look at lines -/

@[simp]
theorem skipSemicolon_breakBefore (trees : List Tree) :
    skipSemicolon (breakBeforeAll offset size trees) = breakBeforeAll offset size (skipSemicolon trees) := by
  cases trees with
  | nil => rfl
  | cons tree trees =>
    rw [breakBeforeAll_cons, skipSemicolon, skipSemicolon, isPunct_breakBefore]
    split <;> rfl

@[simp]
theorem behindWord?_breakBefore (word : String) (trees : List Tree) :
    behindWord? word (breakBeforeAll offset size trees) =
      (behindWord? word trees).map (breakBeforeAll offset size) := by
  cases trees with
  | nil => rfl
  | cons tree trees =>
    rw [breakBeforeAll_cons, behindWord?, behindWord?, isIdent_breakBefore]
    split <;> rfl

@[simp]
theorem skipWord_breakBefore (word : String) (trees : List Tree) :
    skipWord word (breakBeforeAll offset size trees) = breakBeforeAll offset size (skipWord word trees) := by
  rw [skipWord, skipWord, behindWord?_breakBefore]
  cases behindWord? word trees <;> rfl

@[simp]
theorem behindWords?_breakBefore (first second : String) (trees : List Tree) :
    behindWords? first second (breakBeforeAll offset size trees) =
      (behindWords? first second trees).map (breakBeforeAll offset size) := by
  rw [behindWords?, behindWords?, behindWord?_breakBefore]
  cases behindWord? first trees with
  | none => rfl
  | some rest => exact behindWord?_breakBefore second rest

@[simp]
theorem takeArrowBody_breakBefore (trees : List Tree) :
    takeArrowBody (breakBeforeAll offset size trees) =
      (breakBeforeAll offset size (takeArrowBody trees).1, breakBeforeAll offset size (takeArrowBody trees).2) := by
  induction trees with
  | nil => rfl
  | cons tree trees ih =>
    simp only [takeArrowBody, Prod.mk.injEq, breakBeforeAll_cons, List.takeWhile_cons, List.dropWhile_cons,
      endsArrowBody_breakBefore] at ih ⊢
    split
    · exact ⟨congrArg _ ih.1, ih.2⟩
    · exact ⟨rfl, rfl⟩

@[simp]
theorem takeCase_breakBefore (pending : Nat) (trees : List Tree) :
    takeCase pending (breakBeforeAll offset size trees) =
      (takeCase pending trees).map fun r => (breakBeforeAll offset size r.1, breakBeforeAll offset size r.2) := by
  induction trees generalizing pending with
  | nil => rfl
  | cons tree trees ih =>
    rw [breakBeforeAll_cons, takeCase, takeCase, isPunct_breakBefore, isPunct_breakBefore]
    simp only [ih]
    split
    · cases takeCase (pending + 1) trees <;> rfl
    · split
      · split
        · rfl
        · cases takeCase (pending - 1) trees <;> rfl
      · cases takeCase pending trees <;> rfl

@[simp]
theorem cutAtBrace_breakBefore (trees : List Tree) :
    cutAtBrace (breakBeforeAll offset size trees) = (cutAtBrace trees).map fun r =>
      (breakBeforeAll offset size r.1, breakBeforeAll offset size r.2.1, breakBeforeAll offset size r.2.2) := by
  fun_induction cutAtBrace trees with
  | case1 => rfl
  | case2 => rfl
  | case3 tree trees hne ih =>
    rw [breakBeforeAll_cons, cutAtBrace, ih]
    · cases cutAtBrace trees <;> rfl
    · intro opening closing inside he
      cases tree with
      | leaf => cases he
      | group delimiter opening' closing' inside' =>
        cases he
        exact hne _ _ _ rfl

@[simp]
theorem skipAttributes_breakBefore (trees : List Tree) :
    skipAttributes (breakBeforeAll offset size trees) = breakBeforeAll offset size (skipAttributes trees) := by
  match trees with
  | [] | [_] | _ :: .leaf _ :: _ => rfl
  | word :: .group delimiter opening closing inside :: rest =>
    cases delimiter with
    | paren | bracket | template => rfl
    | brace =>
      simp only [breakBeforeAll_cons, breakBefore_group, skipAttributes, isIdent_breakBefore]
      split <;> rfl

/-! ## Cuts that look at lines -/

/-- Whether an expression ends between a tree and the next one if a line break stands before the brace at
an offset. -/
def breaksAt (offset : Nat) (previous : Option Tree) (tree : Tree) : Bool :=
  match previous with
  | none => false
  | some p => tree.opensAt offset && p.endsExpression && !tree.continuesExpression

/-- Whether an expression with these trees ends before the last of them if a line break stands before the
brace at an offset. -/
def cutsAt (offset : Nat) (previous : Option Tree) : List Tree → Bool
  | [] => false
  | tree :: trees => breaksAt offset previous tree || cutsAt offset (some tree) trees

/-- Whether a clause that needs no module specifier ends earlier if a line break stands before the brace at
an offset. -/
def clauseCutsAt (offset : Nat) (first : Bool) : List Tree → Bool
  | [] => false
  | tree :: trees =>
    if tree.string?.isSome || tree.isPunct ";" || (!first && tree.newlineBefore) then false
    else (!first && tree.opensAt offset) || clauseCutsAt offset false trees

theorem breaksBefore_breakBefore (previous : Option Tree) (tree : Tree) :
    breaksBefore (previous.map (·.breakBefore offset size))
        (tree.breakBefore offset size) =
      (breaksBefore previous tree || breaksAt offset previous tree) := by
  cases previous with
  | none => rfl
  | some p => simp only [Option.map_some, breaksBefore, breaksAt, newlineBefore_breakBefore,
      endsExpression_breakBefore, continuesExpression_breakBefore, Bool.and_or_distrib_right]

/-- An expression ends where it did, if the line break does not end it. -/
theorem takeExpression_breakBefore {previous : Option Tree}
    (h : cutsAt offset previous (takeExpression previous trees).1 = false) :
    takeExpression (previous.map (·.breakBefore offset size)) (breakBeforeAll offset size trees) =
      (breakBeforeAll offset size (takeExpression previous trees).1,
        breakBeforeAll offset size (takeExpression previous trees).2) := by
  induction trees generalizing previous with
  | nil => rfl
  | cons tree trees ih =>
    rw [takeExpression] at h
    rw [breakBeforeAll_cons, takeExpression, takeExpression, isPunct_breakBefore, breaksBefore_breakBefore]
    split at h
    · rename_i hstop
      rw [if_pos hstop, if_pos]
      · rfl
      · rw [← Bool.or_assoc, hstop, Bool.true_or]
    · rename_i hgo
      rw [cutsAt, Bool.or_eq_false_iff] at h
      have ih := ih h.2
      rw [Option.map_some] at ih
      rw [h.1, Bool.or_false, if_neg hgo, if_neg hgo, ih]
      rfl

/-- A clause ends where it did, if it needs a module specifier or the line break does not end it. -/
theorem clauseEnd_breakBefore {required first : Bool}
    (h : required = false → clauseCutsAt offset first trees = false) :
    clauseEnd required first (breakBeforeAll offset size trees) =
      (clauseEnd required first trees).map (breakBeforeAll offset size) := by
  induction trees generalizing first with
  | nil => cases required <;> rfl
  | cons tree trees ih =>
    rw [breakBeforeAll_cons, clauseEnd, clauseEnd, string?_isSome_breakBefore, isPunct_breakBefore,
      newlineBefore_breakBefore]
    cases required with
    | true =>
      rw [ih (by simp)]
      split
      · rfl
      · simp only [Bool.not_true, Bool.false_and]
        split <;> rfl
    | false =>
      have h := h rfl
      rw [clauseCutsAt] at h
      split
      · rfl
      · rename_i hstring
        simp only [hstring, Bool.false_or, Bool.not_false, Bool.true_and] at h ⊢
        by_cases hstop : (tree.isPunct ";" || (!first && tree.newlineBefore)) = true
        · rw [if_pos hstop, if_pos]
          · rfl
          · rw [Bool.and_or_distrib_left, ← Bool.or_assoc, hstop, Bool.true_or]
        · rw [if_neg hstop, Bool.or_eq_false_iff] at h
          rw [if_neg hstop, if_neg, ih fun _ => h.2]
          rwa [Bool.and_or_distrib_left, ← Bool.or_assoc, h.1, Bool.or_false]

end Tree

end DeferredLog
