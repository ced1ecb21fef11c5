import DeferredLog.Program
import DeferredLog.Proofs.Outline.Faults

/-!
# Readers advance

A reader takes trees off the front of those that it is given. Seen from a list of trees, it starts at one
position and stops at a later one, not behind the end. A loop that reads from position to position until it
is at the end has therefore at most as many rounds as there are trees; inside of a tree other loops do, and
trees are not nested forever.

* `Outline.Advances`: a reader stops behind the position where it has been started.
* `Outline.rounds_eq`: a loop whose rounds advance ends, and gives what the recursion along the trees does.
* `Outline.walk_advances`: all readers advance, and the loops of the walk end.
-/

namespace DeferredLog

open DeferredLog.Tree

namespace Outline

variable {trees rest whole : List Tree} {pos start bound : Nat} {tree : Tree}

/-! ## Positions -/

/-- What a reader leaves, if it does not fail, that has been started at a position of some trees: the trees
from a later position on, which is not behind their end. -/
def Advances (trees : List Tree) (pos : Nat) (left : Except Fault (List Tree)) : Prop :=
  ∀ rest, left = .ok rest → ∃ next, pos < next ∧ next ≤ trees.length ∧ rest = trees.drop next

/-- The position at which some trees end with what a reader has left. -/
def positionOf (trees rest : List Tree) : Nat :=
  trees.length - rest.length

theorem positionOf_drop (h : pos ≤ trees.length) : positionOf trees (trees.drop pos) = pos := by
  rw [positionOf, List.length_drop]
  omega

/-- What a reader leaves starts at a position. -/
theorem exists_position (h : rest <:+ trees.drop start) (hs : start ≤ trees.length) :
    ∃ next, start ≤ next ∧ next ≤ trees.length ∧ rest = trees.drop next := by
  have hdrop := List.suffix_iff_eq_drop.mp h
  rw [List.drop_drop, List.length_drop] at hdrop
  exact ⟨_, Nat.le_add_right .., by omega, hdrop⟩

/-- A reader that leaves less than it has been given advances. -/
theorem Advances.of_lighter {result : Except Fault (Step (weights (trees.drop pos)))}
    (h : ∀ step, result = .ok step → step.rest <:+ trees.drop pos) (hp : pos < trees.length) :
    Advances trees pos (result.map (·.rest)) := by
  rintro rest hrest
  cases result with
  | error fault => cases hrest
  | ok step =>
    cases hrest
    obtain ⟨next, hle, hlength, hnext⟩ := exists_position (h step rfl) (Nat.le_of_lt hp)
    refine ⟨next, Nat.lt_of_le_of_ne hle ?_, hlength, hnext⟩
    rintro rfl
    exact Nat.lt_irrefl _ (hnext ▸ step.lighter)

/-- So does one that has been given the trees behind the word that it stands for. -/
theorem Advances.of_suffix {α : Type} {result : Except Fault α} {left : α → List Tree}
    (h : ∀ a, result = .ok a → left a <:+ trees.drop (pos + 1)) (hp : pos < trees.length) :
    Advances trees pos (result.map left) := by
  rintro rest hrest
  cases result with
  | error fault => cases hrest
  | ok a =>
    cases hrest
    exact exists_position (h a rfl) hp

/-! ## Readers -/

theorem suffix_switchBlock {step : Step (weights trees)} (h : switchBlock trees whole = .ok step) :
    step.rest <:+ trees :=
  (show (Job.switch trees).Gave step.items step.rest from ⟨whole, step, h, rfl, rfl⟩).reads.suffix

theorem suffix_exportClause {step : Step (weights trees + 1)}
    (h : exportClause trees whole = .ok step) : step.rest <:+ trees :=
  (show (Job.exported trees).Gave step.items step.rest from ⟨whole, step, h, rfl, rfl⟩).reads.suffix

/-- A clause takes at least one tree, a semicolon for example. -/
theorem suffix_moduleClause {required : Bool} {step : Step (weights (tree :: rest) + 1)}
    (h : moduleClause required (tree :: rest) whole = .ok step) : step.rest <:+ rest := by
  unfold moduleClause at h
  split at h
  · cases h
  · rename_i after hend
    cases h
    rw [clauseEnd] at hend
    split at hend
    · cases hend
      exact (suffix_skipSemicolon _).trans (suffix_skipAttributes _)
    · split at hend
      · rename_i hstop
        split at hend
        · cases hend
        · cases hend
          have hsemicolon : tree.isPunct ";" = true := by simpa using hstop
          have hskip : skipAttributes (tree :: rest) = tree :: rest := by
            unfold skipAttributes
            split
            · rename_i hword
              cases hword
              simp [isIdent, Tree.ident?_of_isPunct hsemicolon]
            · rfl
          simp [hskip, skipSemicolon, hsemicolon]
      · exact suffix_clause hend

/-- What weighs less than some trees leaves the first of them behind. -/
theorem suffix_tail_of_lighter {after : List Tree} (h : after <:+ tree :: rest)
    (hl : weights after < weights (tree :: rest)) : after <:+ rest := by
  rcases List.suffix_cons_iff.mp h with rfl | h
  · exact absurd hl (Nat.lt_irrefl _)
  · exact h

/-! ## Rounds -/

/-- A round of a loop over trees: told a state and the trees ahead, it gives what it has read, with the state
and the trees of the next round. -/
abbrev Round (σ : Type) :=
  σ → Tree → List Tree → Except Fault (List Item × σ × List Tree)

/-- A round of the loop over the statements of a body. -/
def bodyRound : Round Unit := fun _ tree rest => do
  let first ← statement tree rest
  return (first.items, (), first.rest)

/-- A round of the loop over the cases of a switch. -/
def caseRound : Round Unit := fun _ tree rest =>
  if tree.isIdent "case" then
    match takeCase 0 rest with
    | none => .error ⟨.expected .caseColon, tree.start⟩
    | some (test, after) => do return (← expression .nothing test, (), after)
  else if tree.isIdent "default" && startsWith (isPunct ":") rest then .ok ([], (), rest.tail)
  else do
    let first ← statement tree rest
    return (first.items, (), first.rest)

/-- A round of the loop over the trees of an expression, told what stands before them. -/
def expressionRound : Round Before
  | _, .group .paren _ _ parameters, .group .brace _ _ inside :: rest => do
    let defaults ← expression .nothing parameters
    let inner ← body inside
    let names := (parameterNames parameters).map .bind
    return ([.scope .function [] (names ++ defaults ++ inner)], .other, rest)
  | _, .group delimiter opening closing inside, rest => do
    return (← expression .nothing inside, .of (.group delimiter opening closing inside), rest)
  | before, .leaf token, rest =>
    match Inner.of before token rest with
    | .function => do
      let f ← function false rest (.leaf token :: rest)
      return (f.items, .other, f.rest)
    | .classBody => do
      let c ← classBody false rest (.leaf token :: rest)
      return (c.items, .other, c.rest)
    | .staticBlock =>
      match rest with
      | .group .brace _ _ inside :: rest => do
        return ([.scope .function [] (← body inside)], .other, rest)
      | rest => .ok ([], .other, rest)
    | .arrow => do
      let a ← arrow before token rest
      return (a.items, .other, a.rest)
    | .plain => .ok ([], .of (.leaf token), rest)

/-- The rounds of a loop from a position on: there are none from the end of the trees on, and at most as many
as there is fuel for. -/
def rounds {σ : Type} (round : Round σ) (trees : List Tree) :
    Nat → σ → Nat → Option (Except Fault (List Item))
  | 0, _, pos => if pos < trees.length then none else some (.ok [])
  | fuel + 1, state, pos =>
    match trees[pos]? with
    | none => some (.ok [])
    | some tree =>
      match round state tree (trees.drop (pos + 1)) with
      | .error fault => some (.error fault)
      | .ok (items, next, rest) =>
        (rounds round trees fuel next (positionOf trees rest)).map fun more => do
          return items ++ (← more)

/-- A recursion along trees that takes the rounds of a loop. -/
structure Loops {σ : Type} (round : Round σ) (read : σ → List Tree → Except Fault (List Item)) : Prop where
  /-- Without trees there is nothing to read. -/
  nil : ∀ state, read state [] = .ok []
  /-- Else there is a round. -/
  cons : ∀ state tree rest, read state (tree :: rest) = do
    let (items, next, after) ← round state tree rest
    return items ++ (← read next after)
  /-- A round advances. -/
  suffix : ∀ {state tree rest items next after}, round state tree rest = .ok (items, next, after) →
    after <:+ rest

/-- **A loop whose rounds advance ends** after at most as many rounds as there are trees ahead, and gives what
the recursion gives. -/
theorem rounds_eq {σ : Type} {round : Round σ} {read : σ → List Tree → Except Fault (List Item)}
    (h : Loops round read) (trees : List Tree) {fuel : Nat} (state : σ) {pos : Nat}
    (hfuel : trees.length ≤ pos + fuel) :
    rounds round trees fuel state pos = some (read state (trees.drop pos)) := by
  induction fuel generalizing state pos with
  | zero =>
    have hend : trees.length ≤ pos := hfuel
    rw [rounds, if_neg (by omega), List.drop_of_length_le hend, h.nil]
  | succ fuel ih =>
    rw [rounds]
    split
    · rename_i hend
      rw [List.drop_of_length_le (List.getElem?_eq_none_iff.mp hend), h.nil]
    · rename_i tree htree
      obtain ⟨hp, rfl⟩ := List.getElem?_eq_some_iff.mp htree
      rw [List.drop_eq_getElem_cons hp, h.cons]
      split
      · rename_i hround
        rw [hround]
        rfl
      · rename_i items next rest hround
        obtain ⟨later, hle, hlength, rfl⟩ := exists_position (h.suffix hround) hp
        rw [positionOf_drop hlength, ih next (by omega), hround]
        rfl

/-- A statement that is read leaves trees behind its first one. -/
theorem suffix_tail_statement {step : Step (weights (tree :: rest))} (h : statement tree rest = .ok step) :
    step.rest <:+ rest :=
  suffix_tail_of_lighter (suffix_statement h) step.lighter

/-- The rest of a round that takes what a reader leaves. -/
theorem suffix_of_map {σ : Type} {x : Except Fault (Step bound)} {state next : σ} {items : List Item}
    {after : List Tree} (h : (do let step ← x; return (step.items, state, step.rest)) = .ok (items, next, after))
    (hx : ∀ step, x = .ok step → step.rest <:+ trees) : after <:+ trees := by
  cases x with
  | error fault => cases h
  | ok step =>
    cases h
    exact hx step rfl

/-- The rest of a round that only reads what stands inside of a tree. -/
theorem suffix_of_read {σ : Type} {x : Except Fault (List Item)} {f : List Item → List Item} {state next : σ}
    {items : List Item} {after : List Tree}
    (h : (do let inner ← x; return (f inner, state, rest)) = .ok (items, next, after))
    (hs : rest <:+ trees) : after <:+ trees := by
  cases x with
  | error fault => cases h
  | ok inner =>
    cases h
    exact hs

theorem loops_body : Loops bodyRound fun _ => body where
  nil _ := by rw [body]
  cons _ tree rest := by
    rw [body, bodyRound]
    cases statement tree rest <;> rfl
  suffix h := suffix_of_map h fun _ => suffix_tail_statement

theorem loops_cases : Loops caseRound fun _ => cases where
  nil _ := by rw [cases]
  cons _ tree rest := by
    rw [cases, caseRound]
    dsimp only
    split
    · split
      · rename_i htest
        rw [htest]
        rfl
      · rename_i test after htest
        rw [htest]
        dsimp only
        cases expression .nothing test <;> rfl
    · split
      · exact (bind_pure _).symm
      · cases statement tree rest <;> rfl
  suffix h := by
    rw [caseRound] at h
    split at h
    · split at h
      · cases h
      · rename_i test after htest
        obtain ⟨colon, rfl, -⟩ := takeCase_cut htest
        exact suffix_of_read (f := id) h ((List.suffix_cons ..).trans (List.suffix_append ..))
    · split at h
      · cases h
        exact List.tail_suffix _
      · exact suffix_of_map h fun _ => suffix_tail_statement

theorem loops_expression : Loops expressionRound expression where
  nil _ := by rw [expression]
  cons before tree rest := by
    unfold expressionRound
    split
    · rename_i parameters _ _ inside rest
      rw [expression]
      cases expression .nothing parameters with
      | error fault => rfl
      | ok defaults => cases body inside <;> rfl
    · rename_i delimiter opening closing inside hother
      rw [expression]
      · cases expression .nothing inside <;> rfl
      · exact hother
    · rename_i token
      rw [expression.eq_def]
      dsimp only
      cases Inner.of before token rest with
      | function => cases function false rest (.leaf token :: rest) <;> rfl
      | classBody => cases classBody false rest (.leaf token :: rest) <;> rfl
      | staticBlock =>
        rcases rest with _ | ⟨_ | ⟨delimiter, _, _, inside⟩, rest⟩
        · exact (bind_pure _).symm
        · exact (bind_pure _).symm
        · cases delimiter with
          | brace =>
            dsimp only
            cases body inside <;> rfl
          | paren | bracket | template => exact (bind_pure _).symm
      | arrow => cases arrow before token rest <;> rfl
      | plain => exact (bind_pure _).symm
  suffix {before tree rest items next after} h := by
    unfold expressionRound at h
    split at h
    · rename_i parameters _ _ inside rest
      cases hd : expression .nothing parameters with
      | error fault =>
        rw [hd] at h
        cases h
      | ok defaults =>
        rw [hd] at h
        exact suffix_of_read h (List.suffix_cons ..)
    · exact suffix_of_read h (List.suffix_refl rest)
    · rename_i token
      cases hi : Inner.of before token rest <;> simp only [hi] at h
      case function => exact suffix_of_map h fun _ => suffix_function
      case classBody => exact suffix_of_map h fun _ => suffix_classBody
      case staticBlock =>
        split at h
        · exact suffix_of_read h (List.suffix_cons ..)
        · cases h
          exact List.suffix_refl rest
      case arrow => exact suffix_of_map h fun _ => suffix_arrow
      case plain =>
        cases h
        exact List.suffix_refl rest

/-! ## The walk -/

/-- **The walk over a program advances and ends.** A reader that is started at a position of some trees fails
or stops at a later one, at most at their end, whatever trees these are: statements and blocks, clauses,
functions, classes and arrow functions, and the rounds of a switch and of an expression. So the loops over
the trees end after at most as many rounds as there are trees, and the program of any trees is read. The
scope that a statement stands in does not matter to its reader. -/
theorem walk_advances (trees : List Tree) :
    (∀ (pos : Fin trees.length) (whole : List Tree),
      let ahead := trees.drop pos
      let behind := trees.drop (pos + 1)
      Advances trees pos ((statement trees[pos] behind).map (·.rest)) ∧
      Advances trees pos ((required ahead whole).map (·.rest)) ∧
      (∀ part, Advances trees pos ((blockHere part ahead whole).map (·.rest))) ∧
      Advances trees pos ((catchClause ahead whole).map (·.rest)) ∧
      Advances trees pos ((switchBlock ahead whole).map (·.rest)) ∧
      (∀ required, Advances trees pos ((moduleClause required ahead whole).map (·.rest))) ∧
      (∀ declares, Advances trees pos ((function declares behind whole).map (·.rest))) ∧
      (∀ declares, Advances trees pos ((classBody declares behind whole).map (·.rest))) ∧
      Advances trees pos ((exportClause behind whole).map (·.rest)) ∧
      (∀ before token, Advances trees pos ((arrow before token behind).map (·.rest))) ∧
      Advances trees pos ((caseRound () trees[pos] behind).map (·.2.2)) ∧
      ∀ before, Advances trees pos ((expressionRound before trees[pos] behind).map (·.2.2))) ∧
    rounds bodyRound trees trees.length () 0 = some (body trees) ∧
    rounds caseRound trees trees.length () 0 = some (cases trees) ∧
    (∀ before, rounds expressionRound trees trees.length before 0 = some (expression before trees)) ∧
    (rounds bodyRound trees trees.length () 0).map (·.map Program.ofOutline) =
      some (Program.ofTrees trees) := by
  have hbody := rounds_eq loops_body trees () (Nat.le_add_left trees.length 0)
  refine ⟨fun pos whole => ?_, hbody, rounds_eq loops_cases trees () (Nat.le_add_left ..),
    fun before => rounds_eq loops_expression trees before (Nat.le_add_left ..), ?_⟩
  · have hp := pos.isLt
    refine ⟨.of_suffix (fun _ => suffix_tail_statement) hp, .of_lighter (fun _ => suffix_required) hp,
      fun _ => .of_lighter (fun _ => suffix_blockHere) hp, .of_lighter (fun _ => suffix_catchClause) hp,
      .of_lighter (fun _ => suffix_switchBlock) hp, fun _ => ?_,
      fun _ => .of_suffix (fun _ => suffix_function) hp,
      fun _ => .of_suffix (fun _ => suffix_classBody) hp, .of_suffix (fun _ => suffix_exportClause) hp,
      fun _ _ => .of_suffix (fun _ => suffix_arrow) hp, .of_suffix (fun _ => loops_cases.suffix) hp,
      fun _ => .of_suffix (fun _ => loops_expression.suffix) hp⟩
    rw [List.drop_eq_getElem_cons hp]
    exact .of_suffix (fun _ => suffix_moduleClause) hp
  · rw [hbody]
    rfl

end Outline

end DeferredLog
