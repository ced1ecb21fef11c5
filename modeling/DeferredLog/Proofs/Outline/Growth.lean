import DeferredLog.Proofs.CallSite.Shape
import DeferredLog.Proofs.Outline.Items
import DeferredLog.Proofs.Tree.Alike
import DeferredLog.Proofs.Tree.Map

/-!
# Trees that grow behind calls

A `Growth` moves every token and puts an empty group in parentheses behind some chosen calls.
`Grows` relates trees to what they grow to, together with the expression statements that they hold:
it says where the statements stand among the trees, and that nothing grows anywhere else.

* `Grows.append`, `Grows.still`: trees grow piece by piece, and those without statements just move.
* `Grows.alike`: the trees of an expression look the same from outside when they have grown.
* `Grows.parameterNames_eq`: the names that a pattern binds stay the same.
-/

namespace DeferredLog

open DeferredLog.Tree

/-- A way for trees to grow: how tokens move, and what comes behind the closing parenthesis of each
chosen call. -/
structure Growth where
  /-- What a token becomes. -/
  move : Token → Token
  /-- The parenthesis that opens behind a closing one. -/
  opening : Token → Token
  /-- The parenthesis that closes again. -/
  closing : Token → Token
  /-- The calls to grow behind, by their trees. -/
  chosen : List Tree → Bool
  /-- A token keeps its kind. -/
  move_kind : ∀ token, (move token).kind = token.kind
  /-- A token keeps its text. -/
  move_text : ∀ token, (move token).text = token.text
  /-- A token keeps the line break before it. -/
  move_newlineBefore : ∀ token, (move token).newlineBefore = token.newlineBefore
  /-- No line break comes before what has grown. -/
  opening_newlineBefore : ∀ token, (opening token).newlineBefore = false
  /-- Only calls are chosen. -/
  chosen_call : ∀ trees, chosen trees = true → ∃ name, CallOf name trees

namespace Growth

variable (g : Growth)

/-- What grows behind a closing parenthesis. -/
def extra (closing : Token) : Tree :=
  .group .paren (g.opening closing) (g.closing closing) []

theorem alike_leaf (token : Token) : Alike (.leaf token) (.leaf (g.move token)) :=
  .leaf (g.move_kind _) (fun _ => g.move_text _) (g.move_newlineBefore _)

theorem alike_map (tree : Tree) : Alike tree (tree.map g.move) := by
  cases tree with
  | leaf => exact g.alike_leaf _
  | group => exact .group (g.move_newlineBefore _)

theorem alike_mapAll (trees : List Tree) : List.Forall₂ Alike trees (mapAll g.move trees) := by
  induction trees with
  | nil => exact .nil
  | cons tree trees ih => exact .cons (g.alike_map tree) ih

end Growth

namespace Outline

/-! ## Where statements stand -/

/-- Whether a statement can start with a tree behind another one: the two do not run together as a
number and a name can. -/
def Parted (before : Option Tree) (tree : Tree) : Prop :=
  tree.ident? = none ∨ tree.newlineBefore = true ∨
    ∀ token, before = some (.leaf token) → token.kind ≠ .number

/-- Whether a statement can start behind a tree with the first of some trees. -/
def Starts (before : Option Tree) (trees : List Tree) : Prop :=
  ∀ tree, trees.head? = some tree → Parted before tree

/-- Whether a group in braces behind a tree of an expression is the body of a function: behind its
parameters, its arrow, or the word `static`. -/
def opensBody : Option Tree → Bool
  | some (.group .paren _ _ _) => true
  | some tree => tree.isPunct "=>" || tree.isIdent "static"
  | none => false

/-- `Grows g top before trees trees' xs xs'`: behind the tree `before`, the trees grow to `trees'`,
and the expression statements `xs` in them to `xs'`. Statements stand side by side at the `top` and
in the bodies of functions; elsewhere trees are parts of expressions. -/
inductive Grows (g : Growth) :
    Bool → Option Tree → List Tree → List Tree → List (List Tree) → List (List Tree) → Prop
  | nil {top before} : Grows g top before [] [] [] []
  | leaf {top before token trees trees' xs xs'} :
      Grows g top (some (.leaf token)) trees trees' xs xs' →
      Grows g top before (.leaf token :: trees) (.leaf (g.move token) :: trees') xs xs'
  | group {top before delimiter a b inside inside' ys ys' trees trees' xs xs'} :
      Grows g false none inside inside' ys ys' →
      Grows g top (some (.group delimiter a b inside)) trees trees' xs xs' →
      Grows g top before (.group delimiter a b inside :: trees)
        (.group delimiter (g.move a) (g.move b) inside' :: trees') (ys ++ xs) (ys' ++ xs')
  | body {top before a b inside inside' ys ys' trees trees' xs xs'} :
      (top = true ∨ opensBody before = true) → Grows g true none inside inside' ys ys' →
      Grows g top (some (.group .brace a b inside)) trees trees' xs xs' →
      Grows g top before (.group .brace a b inside :: trees)
        (.group .brace (g.move a) (g.move b) inside' :: trees') (ys ++ xs) (ys' ++ xs')
  | statement {before tree chunk chunk' ys ys' trees trees' xs xs'} :
      Parted before tree → g.chosen (tree :: chunk) = false →
      Grows g false none (tree :: chunk) chunk' ys ys' →
      Grows g true (lastOf (some tree) chunk) trees trees' xs xs' →
      Grows g true before (tree :: (chunk ++ trees)) (chunk' ++ trees')
        ((tree :: chunk) :: (ys ++ xs)) (chunk' :: (ys' ++ xs'))
  | call {before a b inside inside' ys ys' trees trees' xs xs'} {front : List Token} :
      Starts before (front.map .leaf) →
      g.chosen (front.map .leaf ++ [.group .paren a b inside]) = true →
      Grows g false none inside inside' ys ys' →
      Grows g true (some (.group .paren a b inside)) trees trees' xs xs' →
      Grows g true before (front.map .leaf ++ .group .paren a b inside :: trees)
        ((front.map g.move).map .leaf ++ .group .paren (g.move a) (g.move b) inside' ::
          g.extra b :: trees')
        ((front.map .leaf ++ [.group .paren a b inside]) :: (ys ++ xs))
        (((front.map g.move).map .leaf ++ [.group .paren (g.move a) (g.move b) inside', g.extra b])
          :: (ys' ++ xs'))

namespace Grows

variable {g : Growth} {top : Bool} {before : Option Tree} {trees trees' : List Tree}
  {xs xs' : List (List Tree)}

theorem append {more more' : List Tree} {ys ys' : List (List Tree)}
    (h : Grows g top before trees trees' xs xs')
    (hm : Grows g top (lastOf before trees) more more' ys ys') :
    Grows g top before (trees ++ more) (trees' ++ more') (xs ++ ys) (xs' ++ ys') := by
  induction h with
  | nil => exact hm
  | leaf _ ih => exact .leaf (ih hm)
  | group hi _ _ ih =>
    rw [List.append_assoc, List.append_assoc]
    exact .group hi (ih hm)
  | body hb hi _ _ ih =>
    rw [List.append_assoc, List.append_assoc]
    exact .body hb hi (ih hm)
  | @statement _ tree chunk _ _ _ _ _ _ _ hp hc hi _ _ ih =>
    simp only [List.cons_append, List.append_assoc]
    refine .statement hp hc hi (ih ?_)
    rwa [lastOf, lastOf_append] at hm
  | call hp hc hi _ _ ih =>
    simp only [List.cons_append, List.append_assoc]
    refine .call hp hc hi (ih ?_)
    rwa [lastOf_append, lastOf] at hm

/-- What grows as a part of an expression also does so among statements. -/
theorem lift (h : Grows g false before trees trees' xs xs') :
    Grows g true before trees trees' xs xs' := by
  generalize ht : false = top at h
  induction h with
  | nil => exact .nil
  | leaf _ ih => exact .leaf (ih ht)
  | group hi _ _ ih => exact .group hi (ih ht)
  | body _ hi _ _ ih => exact .body (.inl rfl) hi (ih ht)
  | statement | call => cases ht

theorem raise (h : Grows g false before trees trees' xs xs') (top : Bool) :
    Grows g top before trees trees' xs xs' := by
  cases top with
  | false => exact h
  | true => exact h.lift

mutual

/-- Trees without statements just move. -/
theorem still_tree (g : Growth) (top : Bool) (before : Option Tree) (tree : Tree)
    {trees trees' : List Tree} {xs xs' : List (List Tree)}
    (h : Grows g top (some tree) trees trees' xs xs') :
    Grows g top before (tree :: trees) (tree.map g.move :: trees') xs xs' :=
  match tree with
  | .leaf _ => .leaf h
  | .group _ _ _ inside => .group (still g false none inside) h

theorem still (g : Growth) (top : Bool) (before : Option Tree) (trees : List Tree) :
    Grows g top before trees (mapAll g.move trees) [] [] :=
  match trees with
  | [] => .nil
  | tree :: trees => still_tree g top before tree (still g top _ trees)

end

/-- The trees of an expression look the same when they have grown. -/
theorem alike (h : Grows g false before trees trees' xs xs') : List.Forall₂ Alike trees trees' := by
  generalize ht : false = top at h
  induction h with
  | nil => exact .nil
  | leaf _ ih => exact .cons (g.alike_leaf _) (ih ht)
  | group _ _ _ ih | body _ _ _ _ ih => exact .cons (.group (g.move_newlineBefore _)) (ih ht)
  | statement | call => cases ht

/-- Trees begin alike when they have grown: a call is longer than what is looked at. -/
theorem ahead {rest rest' : List Tree} (h : Grows g top before trees trees' xs xs')
    (hr : Ahead 2 rest rest') : Ahead 2 (trees ++ rest) (trees' ++ rest') := by
  induction h with
  | nil => exact hr
  | leaf _ ih => exact ih.cons (g.alike_leaf _)
  | group _ _ _ ih | body _ _ _ _ ih => exact ih.cons (.group (g.move_newlineBefore _))
  | statement _ _ hi _ _ ih =>
    rw [← List.cons_append, List.append_assoc, List.append_assoc]
    exact ih.append hi.alike
  | @call _ _ _ _ _ _ _ _ _ _ _ front _ hc _ _ _ _ =>
    obtain ⟨name, hcall⟩ := g.chosen_call _ hc
    obtain ⟨front', a', b', inside', he, hl⟩ := hcall.split
    obtain ⟨he, -⟩ := List.append_inj' he rfl
    have hlen : front.length = front'.length := by simpa using congrArg List.length he
    rcases front with _ | ⟨first, _ | ⟨second, front⟩⟩
    · simp at hlen; omega
    · simp at hlen; omega
    · exact ⟨g.alike_leaf _, g.alike_leaf _, trivial⟩

end Grows

end Outline

end DeferredLog
