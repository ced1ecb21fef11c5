import DeferredLog.Proofs.Outline.Follows
import DeferredLog.Proofs.Program.Parses

/-!
# What the scope of an arrow function holds

If what an arrow function gives is an expression, the walk takes for it all trees up to the next comma or
semicolon. The expression can end earlier (`Outline.valueOf`): before the colon of a conditional around the
function, at the end of a substitution in a template, and at a line break in the body of a class.

* `Program.statements_of_arrow`: the statements that stand in the scope of an arrow function are those that
  start in what is taken for its expression. So none behind the expression does if none starts between the
  end of the expression and the next comma or semicolon.
* `Program.not_forall_statements_of_arrow`: some can, in the last operand of a conditional.
-/

namespace DeferredLog

open DeferredLog.Tree

namespace Outline

open Item

/-! ## Where the value ends -/

/-- Whether an operand can end with a tree, told whether a dot stands before it. A word behind a dot is no
operator. -/
def endsOperand (dotted : Bool) (tree : Tree) : Bool :=
  dotted && tree.ident?.isSome || tree.endsExpression

/-- Whether a tree is the piece of a template between two substitutions. -/
def isMiddle : Tree → Bool
  | .leaf token => token.kind = .templateMiddle
  | .group .. => false

/-- What is known of the trees at the front of an expression. -/
structure Followed where
  /-- The last of them. -/
  last : Option Tree
  /-- Whether that stands behind a dot. -/
  dotted : Bool
  /-- The number of conditionals that are open. -/
  pending : Nat
  /-- Whether they end in the head of a function or class. No line ends the expression there. -/
  head : Bool

namespace Followed

/-- Nothing is known before the first tree. -/
def start : Followed := ⟨none, false, 0, false⟩

/-- What is known behind one more tree. -/
def next (s : Followed) (tree : Tree) : Followed :=
  let dotted := s.last.any Tree.isDot
  { last := some tree
    dotted
    pending :=
      if tree.isPunct "?" then s.pending + 1 else if tree.isPunct ":" then s.pending - 1 else s.pending
    head := !isGroup .brace tree &&
      (s.head || !dotted && (tree.isIdent "function" || tree.isIdent "class")) }

/-- Whether the expression ends before a tree. -/
def ends (s : Followed) (tree : Tree) : Bool :=
  endsArrowBody tree || isMiddle tree || tree.isPunct ":" && s.pending = 0 ||
    !s.head && tree.newlineBefore && s.last.any (endsOperand s.dotted) && !tree.continuesExpression

end Followed

/-- The trees of the expression that an arrow function gives. -/
def valueOf (s : Followed) : List Tree → List Tree
  | [] => []
  | tree :: trees => if s.ends tree then [] else tree :: valueOf (s.next tree) trees

/-- What is taken for the expression starts with it. -/
theorem exists_past (s : Followed) (trees : List Tree) :
    ∃ past, valueOf s trees ++ past = (takeArrowBody trees).1 := by
  induction trees generalizing s with
  | nil => exact ⟨[], rfl⟩
  | cons tree trees ih =>
    rw [valueOf]
    split
    · exact ⟨_, rfl⟩
    · rename_i h
      have hends : endsArrowBody tree = false := by
        by_contra hends
        simp [Followed.ends, hends] at h
      obtain ⟨past, hpast⟩ := ih (s.next tree)
      refine ⟨past, ?_⟩
      rw [takeArrowBody, List.takeWhile_cons_of_pos (by simp [hends]), List.cons_append, hpast]
      rfl

/-- A value starts with the first tree. -/
theorem exists_cons_of_valueOf {s : Followed} {first : Tree} {more : List Tree}
    (h : valueOf s (first :: more) ≠ []) : ∃ v, valueOf s (first :: more) = first :: v := by
  rw [valueOf] at h ⊢
  split at h
  · exact absurd rfl h
  · rename_i hends
    rw [if_neg hends]
    exact ⟨_, rfl⟩

/-! ## The scope of an arrow function -/

variable {before : Before} {names : List String} {first : Tree} {more rest : List Tree} {items : List Item}

/-- What is read for an arrow function are the trees up to the next comma or semicolon. -/
theorem read_arrow (before : Before) (trees : List Tree) :
    (Job.arrow before trees).read (takeArrowBody trees).2 = flattenAll (takeArrowBody trees).1 := by
  have hcut : (takeArrowBody trees).1 ++ (takeArrowBody trees).2 = trees :=
    List.takeWhile_append_dropWhile
  have hread := @Job.read_append (.arrow before trees) (takeArrowBody trees).2 ⟨_, hcut⟩
  rw [Job.trees] at hread
  conv_lhs at hread => rw [← hcut]
  rw [flattenAll_append] at hread
  exact (List.append_cancel_right hread).symm

/-- **The statements in a scope** that opens for some trees are those that start among the trees. -/
theorem Splits.mem_around_iff {tokens behind : List Token} {whole inside : List Item} {t : Spot}
    {before after : List Site} {around : List Nat} {x : List Tree} {kind : ScopeKind}
    (h : Splits tokens whole t [.scope kind [] inside] rest before after around behind)
    (hreads : Reads t.job [.scope kind [] inside] rest) (harrow : t.job.isArrow = true)
    (hx : t.job.read rest = flattenAll x) (hne : x ≠ []) (ho : Token.Ordered tokens) :
    ∀ site ∈ sitesAll 1 whole,
      t.scopes ∈ site.around ↔ startOf x ≤ startOf site.trees ∧ startOf site.trees < stopOf x := by
  have htokens := h.tokens_eq
  rw [hx] at htokens
  rw [htokens] at ho
  intro site hsite
  rw [h.sites_eq] at hsite
  rcases List.mem_append.mp hsite with hs | hs
  · have hlt := (h.arrow_starts harrow site hs).lt_startOf (ho.sublist (by simp)) hne
    have hnot : t.scopes ∉ site.around := fun hk => Nat.lt_irrefl _ (h.before_lt site hs _ hk)
    simp only [hnot, false_iff]
    omega
  rcases List.mem_append.mp hs with hs | hs
  · obtain ⟨inner, hinner, rfl⟩ := List.mem_map.mp hs
    have hin := hreads.startsIn t.scopes inner hinner
    rw [hx] at hin
    have hmem : t.scopes ∈ inner.around := by
      simp only [sitesAll_cons, sites_scope, sitesAll_nil, List.nil_append, List.append_nil] at hinner
      obtain ⟨site, -, rfl⟩ := List.mem_map.mp hinner
      simp [Site.within]
    simp only [Site.within, List.mem_append, hmem, true_or, true_iff]
    exact hin.between ho.right.left
  · have hle := (h.after_starts site hs).stopOf_le ho.right hne
    have hnot : t.scopes ∉ site.around := fun hk => by
      have := h.after_around site hs _ hk
      simp only [scopesAll_cons, scopes_scope] at this
      omega
    simp only [hnot, false_iff]
    omega

end Outline

namespace Program

open Outline Item

section Arrow

variable {source : List Char} {trees more : List Tree} {program : Program} {front : List Token} {k : Nat}
  {before : Before} {first : Tree}

/-- **The statements in the scope of an arrow function** that gives an expression, which binds its
parameters, are those that start in what is taken for the expression. None starts behind the end of the
expression exactly if each one that starts before the next comma or semicolon starts before that end. -/
theorem statements_of_arrow (htrees : Tree.parse source = .ok trees) (hp : parse source = .ok program)
    (hvisits : Visits (.top trees) ⟨front, k, .arrow before (first :: more)⟩)
    (hbrace : isGroup .brace first = false) (hvalue : valueOf .start (first :: more) ≠ []) :
    (∃ names parent bound, before.arrowNames = some names ∧
      program.scopes[k]? = some ⟨.function, some parent, bound⟩ ∧ ∀ name, name ∈ bound ↔ name ∈ names) ∧
    (∀ s ∈ program.statements.toList, k ∈ program.ancestors s.scope ↔
      first.start ≤ s.start ∧ s.start < stopOf (takeArrowBody (first :: more)).1) ∧
    ((∀ s ∈ program.statements.toList, stopOf (valueOf .start (first :: more)) ≤ s.start →
        k ∉ program.ancestors s.scope) ↔
      ∀ s ∈ program.statements.toList, s.start < stopOf (takeArrowBody (first :: more)).1 →
        s.start < stopOf (valueOf .start (first :: more))) := by
  obtain ⟨tokens, trees', items, htrees', hparses, rfl⟩ := Parses.exists_of_parse hp
  obtain rfl : trees' = trees := Except.ok.inj (htrees'.symm.trans htrees)
  obtain ⟨items', rest, before', after, around, behind, hreads, hsplits⟩ :=
    hvisits.splits (body_eq_ok_iff.mp hparses.body)
  obtain ⟨names, inner, hnames, hinner, rfl, rfl⟩ := hreads.arrow_inv hbrace
  obtain ⟨past, hpast⟩ := exists_past .start (first :: more)
  obtain ⟨v, hv⟩ := exists_cons_of_valueOf hvalue
  have hopened := hsplits.openings_eq
  rw [hv] at hpast ⊢
  have hordered : Token.Ordered (flattenAll trees') := hparses.flattenAll_eq ▸ hparses.ordered
  have hread := read_arrow before (first :: more)
  have hfirst : first.start = startOf (takeArrowBody (first :: more)).1 := by
    rw [← hpast]
    rfl
  have hne : (takeArrowBody (first :: more)).1 ≠ [] := by
    rw [← hpast]
    exact List.cons_ne_nil _ _
  have hends : first.start < stopOf (first :: v) := by
    rw [hsplits.tokens_eq, hread, ← hpast, flattenAll_append] at hordered
    exact ((startsIn_flattenAll (List.cons_ne_nil first v)).between hordered.right.left.left).2
  have hiff : ∀ s ∈ (ofOutline items).statements.toList, k ∈ (ofOutline items).ancestors s.scope ↔
      first.start ≤ s.start ∧ s.start < stopOf (takeArrowBody (first :: more)).1 := by
    intro s hs
    obtain ⟨site, hsite, htrees, hancestors⟩ := exists_site hs
    have hsite := hsplits.mem_around_iff hreads rfl hread hne hordered site hsite
    obtain ⟨opened, _, -, hlength⟩ := hopened
    have hk : k ≠ 0 := by
      change _ = k at hlength
      omega
    rw [hancestors, List.mem_append, List.mem_singleton, or_iff_left hk, hfirst]
    rw [← htrees] at hsite
    exact hsite
  refine ⟨?_, hiff, ?_, ?_⟩
  · obtain ⟨opened, _, heq, hlength⟩ := hopened
    change _ = k at hlength
    have hopening : (openingsAll items)[opened.length]? =
        some ⟨.function, names.map .bind ++ inner⟩ := by
      rw [heq, List.getElem?_append_right (Nat.le_refl _), Nat.sub_self]
      rfl
    obtain ⟨parent, bound, hscope, hmem⟩ := scopes_ofOutline hopening
    rw [Nat.add_comm, hlength] at hscope
    obtain ⟨hbinds, hhoists⟩ := hinner.binds_nothing rfl
    refine ⟨names, parent, bound, hnames, hscope, fun name => ?_⟩
    simp [hmem, Opening.names, hbinds, hhoists]
  · intro hnone s hs hlt
    by_contra hle
    rw [Nat.not_lt] at hle
    exact hnone s hs hle ((hiff s hs).mpr ⟨by omega, hlt⟩)
  · intro hall s hs hle hk
    have := hall s hs ((hiff s hs).mp hk).2
    omega

end Arrow

/-- In `a => function () {a.d()}; b` the statement in the function is in the scope of the arrow function, and
the one behind it is not. -/
theorem statements_of_arrow_function : ∃ trees program,
    Tree.parse "a => function () {a.d()}; b".toList = .ok trees ∧
      parse "a => function () {a.d()}; b".toList = .ok program ∧
      (∃ s ∈ program.statements.toList, s.start = 18 ∧ 1 ∈ program.ancestors s.scope) ∧
      ∃ s ∈ program.statements.toList, s.start = 26 ∧ 1 ∉ program.ancestors s.scope := by
  have hscan : Token.scan "a => function () {a.d()}; b".toList = .ok (flattenAll (letterAt "a" 0 ::
      signAt "=>" 2 :: (functionAt 5 ++ [signAt ";" 24, letterAt "b" 26]))) := by
    decide +kernel
  have htrees : Tree.parse "a => function () {a.d()}; b".toList = .ok (letterAt "a" 0 ::
      signAt "=>" 2 :: (functionAt 5 ++ [signAt ";" 24, letterAt "b" 26])) := by
    rw [Tree.parse, hscan]
    rfl
  have hsites : (parse "a => function () {a.d()}; b".toList).toOption.any (fun program =>
      program.statements.toList.any (·.start = 18) && program.statements.toList.any (·.start = 26)) = true := by
    decide +kernel
  obtain ⟨program, hp, hsites⟩ := exists_of_any_toOption hsites
  obtain ⟨hinner, houter⟩ := Bool.and_eq_true_iff.mp hsites
  obtain ⟨_, _, items, htrees', hparses, -⟩ := Parses.exists_of_parse hp
  obtain rfl := Except.ok.inj (htrees.symm.trans htrees')
  have hstatement := leads_statement [] 1 (body_eq_ok_iff.mp hparses.body)
  obtain ⟨_, _, hreads⟩ := hstatement.reads
  have hexpression := leads_expression [] 1 hreads (by decide)
  obtain ⟨_, _, hreads⟩ := hexpression.reads
  have hplain := leads_plain [] 1 hreads (by decide)
  obtain ⟨_, _, hreads⟩ := hplain.reads
  have harrow := leads_arrow [⟨.ident, "a", 0, false⟩] 1 hreads (by decide)
  have hvisits : Visits (.top _) _ :=
    .tail (.tail (.tail (.single hstatement) hexpression) hplain) harrow
  obtain ⟨-, hiff, -⟩ := statements_of_arrow htrees hp hvisits (by decide) (by decide)
  refine ⟨_, program, htrees, hp, ?_, ?_⟩
  · obtain ⟨s, hs, hstart⟩ := List.any_eq_true.mp hinner
    refine ⟨s, hs, of_decide_eq_true hstart, (hiff s hs).mpr ?_⟩
    rw [of_decide_eq_true hstart]
    decide
  · obtain ⟨s, hs, hstart⟩ := List.any_eq_true.mp houter
    refine ⟨s, hs, of_decide_eq_true hstart, fun hmem => ?_⟩
    have hlt := ((hiff s hs).mp hmem).2
    rw [of_decide_eq_true hstart] at hlt
    exact absurd hlt (by decide)

/-- **Statements behind the expression of an arrow function can stand in its scope.** In
`c ? a => b : function () {a.d()}` the second function is read as a part of the first one. -/
theorem not_forall_statements_of_arrow : ¬ ∀ (source : List Char) (trees more : List Tree)
    (program : Program) (front : List Token) (k : Nat) (before : Before) (first : Tree),
    Tree.parse source = .ok trees → parse source = .ok program →
      Visits (.top trees) ⟨front, k, .arrow before (first :: more)⟩ → isGroup .brace first = false →
      valueOf .start (first :: more) ≠ [] → ∀ s ∈ program.statements.toList,
        stopOf (valueOf .start (first :: more)) ≤ s.start → k ∉ program.ancestors s.scope := by
  intro hall
  have hscan : Token.scan "c ? a => b : function () {a.d()}".toList = .ok (flattenAll (letterAt "c" 0 ::
      signAt "?" 2 :: letterAt "a" 4 :: signAt "=>" 6 :: letterAt "b" 9 :: signAt ":" 11 ::
        functionAt 13)) := by
    decide +kernel
  have htrees : Tree.parse "c ? a => b : function () {a.d()}".toList = .ok (letterAt "c" 0 ::
      signAt "?" 2 :: letterAt "a" 4 :: signAt "=>" 6 :: letterAt "b" 9 :: signAt ":" 11 ::
        functionAt 13) := by
    rw [Tree.parse, hscan]
    rfl
  have hsite : (parse "c ? a => b : function () {a.d()}".toList).toOption.any (fun program =>
      program.statements.toList.any fun s =>
        s.start = 26 && (program.ancestors s.scope).contains 1) = true := by
    decide +kernel
  obtain ⟨program, hp, hsite⟩ := exists_of_any_toOption hsite
  obtain ⟨s, hs, hsite⟩ := List.any_eq_true.mp hsite
  obtain ⟨hstart, hmem⟩ := Bool.and_eq_true_iff.mp hsite
  obtain ⟨_, _, items, htrees', hparses, -⟩ := Parses.exists_of_parse hp
  obtain rfl := Except.ok.inj (htrees.symm.trans htrees')
  have hstatement := leads_statement [] 1 (body_eq_ok_iff.mp hparses.body)
  obtain ⟨_, _, hreads⟩ := hstatement.reads
  have hexpression := leads_expression [] 1 hreads (by decide)
  obtain ⟨_, _, hreads⟩ := hexpression.reads
  have hcondition := leads_plain [] 1 hreads (by decide)
  obtain ⟨_, _, hreads⟩ := hcondition.reads
  have hsign := leads_plain [⟨.ident, "c", 0, false⟩] 1 hreads (by decide)
  obtain ⟨_, _, hreads⟩ := hsign.reads
  have hname := leads_plain [⟨.ident, "c", 0, false⟩, ⟨.punct, "?", 2, false⟩] 1 hreads (by decide)
  obtain ⟨_, _, hreads⟩ := hname.reads
  have harrow := leads_arrow [⟨.ident, "c", 0, false⟩, ⟨.punct, "?", 2, false⟩, ⟨.ident, "a", 4, false⟩] 1
    hreads (by decide)
  have hvisits : Visits (.top _) _ :=
    .tail (.tail (.tail (.tail (.tail (.single hstatement) hexpression) hcondition) hsign) hname) harrow
  refine hall _ _ _ program _ 1 _ _ htrees hp hvisits (by decide) (by decide) s hs ?_
    (List.contains_iff_mem.mp hmem)
  rw [of_decide_eq_true hstart]
  decide

end Program

end DeferredLog
