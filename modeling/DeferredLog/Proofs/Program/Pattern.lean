import DeferredLog.Proofs.Outline.Growth
import DeferredLog.Proofs.Tree.Alike

/-!
# The names of a pattern

`boundNames` without the weights that make it end (`boundNames_eq`), and the fact that a pattern
binds the same names when the trees in it have grown: nothing that grows in an expression is where
names are looked for.

* `parameterNames_of_grows`, `loopNames_of_grows`.
-/

namespace DeferredLog

namespace Tree

/-- The names that a property of an object pattern binds. -/
def propertyNames (piece : List Tree) : List String :=
  match (cutAt (isPunct ":") piece).2 with
  | some value => boundNames value
  | none => boundNames (cutAt (isPunct ":") piece).1

/-- The names that a pattern without a default binds. -/
def targetNames : List Tree → List String
  | [] => []
  | first :: rest =>
    if first.isPunct "..." then boundNames rest
    else
      match first with
      | .leaf token =>
        if token.kind = .ident && rest.isEmpty && !isReserved token.text then [token.text] else []
      | .group .bracket _ _ inside => (betweenCommas inside).flatMap boundNames
      | .group .brace _ _ inside => (betweenCommas inside).flatMap propertyNames
      | _ => []

/-- The names of a pattern, without its default. -/
theorem boundNames_eq (pattern : List Tree) :
    boundNames pattern = targetNames (cutAt (isPunct "=") pattern).1 := by
  generalize hc : (cutAt (isPunct "=") pattern).1 = cut
  rw [boundNames]
  cases cut with
  | nil =>
    split
    · rfl
    · rename_i h
      cases hc.symm.trans h
  | cons first rest =>
    split
    · rename_i h
      cases hc.symm.trans h
    · rename_i h
      cases hc.symm.trans h
      have flat : ∀ (pieces : List (List Tree)) (f : List Tree → List String),
          (pieces.attach.flatMap fun piece => f piece.val) = pieces.flatMap f := by
        intro pieces f
        rw [List.flatMap_subtype (g := f) (fun _ _ => rfl), List.unattach_attach]
      cases first with
      | leaf => rfl
      | group delimiter =>
        cases delimiter with
        | paren | template => rfl
        | bracket => exact flat _ boundNames
        | brace =>
          refine Eq.trans ?_ (flat _ propertyNames)
          refine congrArg (List.flatMap · _) (funext fun piece => ?_)
          rw [propertyNames]
          dsimp only
          split
          · rename_i h
            rw [h]
          · rename_i h
            rw [h]

/-! ## Patterns that grow -/

end Tree

namespace Outline

open DeferredLog.Tree

/-- Some trees grow as parts of an expression. -/
def Similar (g : Growth) (trees trees' : List Tree) : Prop :=
  ∃ xs xs', Grows g false none trees trees' xs xs'

/-- A separator: a leaf, which trees that are alike agree on and no body opens behind. -/
structure Separates (separator : Tree → Bool) : Prop where
  alike : ∀ {tree tree'}, Alike tree tree' → separator tree' = separator tree
  leaf : ∀ {tree}, separator tree = true → ∃ token, tree = .leaf token
  opensBody : ∀ {tree}, separator tree = true → Outline.opensBody (some tree) = false

theorem separates_isPunct (text : String) (h : text ≠ "=>") : Separates (isPunct text) where
  alike ht := ht.isPunct_eq text
  leaf ht := by
    obtain ⟨token, rfl, -⟩ := Tree.isPunct_iff.mp ht
    exact ⟨token, rfl⟩
  opensBody ht := by
    obtain ⟨token, rfl, hp⟩ := Tree.isPunct_iff.mp ht
    simp only [Token.isPunct, Bool.and_eq_true, decide_eq_true_eq] at hp
    simp [Outline.opensBody, isPunct, Token.isPunct, isIdent, ident?, hp.1, hp.2, h]

variable {g : Growth} {before : Option Tree} {trees trees' : List Tree} {xs xs' : List (List Tree)}
  {separator : Tree → Bool}

theorem Separates.group_eq_false (hs : Separates separator) (delimiter : Delimiter)
    (opening closing : Token) (inside : List Tree) :
    ¬ separator (.group delimiter opening closing inside) = true := by
  intro h
  obtain ⟨token, h⟩ := hs.leaf h
  cases h

/-- Behind a tree that opens no body, trees grow as at the start. -/
theorem Grows.similar (h : Grows g false before trees trees' xs xs')
    (hb : opensBody before = false) : Similar g trees trees' := by
  cases h with
  | nil => exact ⟨_, _, .nil⟩
  | leaf h => exact ⟨_, _, .leaf h⟩
  | group hi h => exact ⟨_, _, .group hi h⟩
  | body ho =>
    rcases ho with ho | ho
    · cases ho
    · simp [hb] at ho

/-- Trees that grow as parts of an expression are cut alike at a separator. -/
theorem Grows.cutAt (hs : Separates separator) (h : Grows g false before trees trees' xs xs') :
    (∃ ys ys', Grows g false before (cutAt separator trees).1 (cutAt separator trees').1 ys ys') ∧
      Option.Rel (Similar g) (cutAt separator trees).2 (cutAt separator trees').2 := by
  generalize ht : false = top at h
  induction h with
  | nil => exact ⟨⟨[], [], .nil⟩, .none⟩
  | @leaf _ before token trees trees' xs xs' h ih =>
    subst ht
    simp only [Tree.cutAt, hs.alike (g.alike_leaf token)]
    split
    · rename_i hsep
      exact ⟨⟨[], [], .nil⟩, .some (h.similar (hs.opensBody hsep))⟩
    · obtain ⟨⟨ys, ys', hg⟩, hr⟩ := ih rfl
      exact ⟨⟨ys, ys', .leaf hg⟩, hr⟩
  | group hi _ _ ih =>
    subst ht
    simp only [Tree.cutAt, if_neg (hs.group_eq_false _ _ _ _)]
    obtain ⟨⟨ys, ys', hg⟩, hr⟩ := ih rfl
    exact ⟨⟨_, _, .group hi hg⟩, hr⟩
  | body hb hi _ _ ih =>
    subst ht
    simp only [Tree.cutAt, if_neg (hs.group_eq_false _ _ _ _)]
    obtain ⟨⟨ys, ys', hg⟩, hr⟩ := ih rfl
    exact ⟨⟨_, _, .body hb hi hg⟩, hr⟩
  | statement | call => cases ht

/-- Trees that grow as parts of an expression fall into pieces alike. -/
theorem Grows.pieces (hs : Separates separator) (h : Grows g false before trees trees' xs xs') :
    ∃ first first' rest rest', pieces separator trees = first :: rest ∧
      pieces separator trees' = first' :: rest' ∧
      (∃ ys ys', Grows g false before first first' ys ys') ∧
      List.Forall₂ (Similar g) rest rest' := by
  generalize ht : false = top at h
  induction h with
  | nil => exact ⟨[], [], [], [], rfl, rfl, ⟨[], [], .nil⟩, .nil⟩
  | @leaf _ before token trees trees' xs xs' h ih =>
    subst ht
    obtain ⟨first, first', rest, rest', he, he', ⟨ys, ys', hg⟩, hr⟩ := ih rfl
    simp only [Tree.pieces, hs.alike (g.alike_leaf token), he, he']
    split
    · rename_i hsep
      exact ⟨[], [], _, _, rfl, rfl, ⟨[], [], .nil⟩, .cons (hg.similar (hs.opensBody hsep)) hr⟩
    · exact ⟨_, _, rest, rest', rfl, rfl, ⟨_, _, .leaf hg⟩, hr⟩
  | group hi _ _ ih =>
    subst ht
    obtain ⟨first, first', rest, rest', he, he', ⟨ys, ys', hg⟩, hr⟩ := ih rfl
    simp only [Tree.pieces, if_neg (hs.group_eq_false _ _ _ _), he, he']
    exact ⟨_, _, rest, rest', rfl, rfl, ⟨_, _, .group hi hg⟩, hr⟩
  | body hb hi _ _ ih =>
    subst ht
    obtain ⟨first, first', rest, rest', he, he', ⟨ys, ys', hg⟩, hr⟩ := ih rfl
    simp only [Tree.pieces, if_neg (hs.group_eq_false _ _ _ _), he, he']
    exact ⟨_, _, rest, rest', rfl, rfl, ⟨_, _, .body hb hi hg⟩, hr⟩
  | statement | call => cases ht

theorem Similar.pieces (hs : Separates separator) (h : Similar g trees trees') :
    List.Forall₂ (Similar g) (pieces separator trees) (pieces separator trees') := by
  obtain ⟨xs, xs', h⟩ := h
  obtain ⟨first, first', rest, rest', he, he', hf, hr⟩ := h.pieces hs
  rw [he, he']
  exact .cons hf hr

theorem flatMap_of_similar {f : List Tree → List String} {pieces pieces' : List (List Tree)}
    (h : List.Forall₂ (Similar g) pieces pieces')
    (hf : ∀ piece ∈ pieces, ∀ piece', Similar g piece piece' → f piece' = f piece) :
    pieces'.flatMap f = pieces.flatMap f := by
  induction h with
  | nil => rfl
  | cons h _ ih =>
    rw [List.flatMap_cons, List.flatMap_cons, hf _ List.mem_cons_self _ h,
      ih fun piece hp => hf piece (List.mem_cons_of_mem _ hp)]

/-- **A pattern that grows binds the same names.** -/
theorem Similar.boundNames_eq (h : Similar g trees trees') :
    boundNames trees' = boundNames trees := by
  induction hn : weights trees using Nat.strongRecOn generalizing trees trees' with
  | _ n ih =>
  subst hn
  have ih : ∀ {a a' : List Tree}, weights a < weights trees → Similar g a a' →
      boundNames a' = boundNames a := fun hlt h => ih _ hlt h rfl
  have property : ∀ {a a' : List Tree}, weights a < weights trees → Similar g a a' →
      propertyNames a' = propertyNames a := by
    rintro a a' hlt ⟨ys, ys', h⟩
    obtain ⟨⟨zs, zs', hf⟩, hr⟩ := h.cutAt (separates_isPunct ":" (by decide))
    have hle := weights_cutAt_fst_le (isPunct ":") a
    rw [propertyNames, propertyNames]
    generalize hv : (Tree.cutAt (isPunct ":") a).2 = value at hr
    generalize (Tree.cutAt (isPunct ":") a').2 = value' at hr
    cases hr with
    | none => exact ih (by omega) ⟨_, _, hf⟩
    | some hr =>
      have := weights_cutAt_snd_lt hv
      exact ih (by omega) hr
  obtain ⟨ys, ys', h⟩ := h
  obtain ⟨⟨zs, zs', hf⟩, -⟩ := h.cutAt (separates_isPunct "=" (by decide))
  have hle := weights_cutAt_fst_le (isPunct "=") trees
  rw [Tree.boundNames_eq, Tree.boundNames_eq]
  generalize (Tree.cutAt (isPunct "=") trees).1 = cut at hf hle
  generalize (Tree.cutAt (isPunct "=") trees').1 = cut' at hf
  have inside : ∀ {i i' : List Tree} {us us' : List (List Tree)} {f : List Tree → List String},
      weights i < weights trees → Grows g false none i i' us us' →
      (∀ {a a' : List Tree}, weights a < weights trees → Similar g a a' → f a' = f a) →
      (betweenCommas i').flatMap f = (betweenCommas i).flatMap f := by
    intro i i' us us' f hlt hi hf
    refine flatMap_of_similar (Similar.pieces (separates_isPunct _ (by decide)) ⟨_, _, hi⟩) ?_
    intro piece hp piece' hs
    exact hf (Nat.lt_of_le_of_lt (weights_pieces_le hp) hlt) hs
  cases hf with
  | nil => rfl
  | @leaf _ _ token rest rest' _ _ h =>
    simp only [weights_cons, weight_leaf] at hle
    simp only [targetNames, (g.alike_leaf token).isPunct_eq, g.move_kind, g.move_text]
    split
    · rename_i hd
      exact ih (by omega) (h.similar ((separates_isPunct _ (by decide)).opensBody hd))
    · have hempty : rest'.isEmpty = rest.isEmpty := by
        have := h.alike.length_eq
        cases rest <;> cases rest' <;> simp_all
      rw [hempty]
  | @group _ _ delimiter _ _ i _ _ _ rest _ _ _ hi h =>
    simp only [weights_cons, weight_group] at hle
    simp only [targetNames]
    cases delimiter with
    | paren | template => rfl
    | bracket => exact inside (by omega) hi ih
    | brace => exact inside (by omega) hi property
  | body hb =>
    rcases hb with hb | hb <;> cases hb

/-- The names that parameters bind stay the same when they grow. -/
theorem Similar.parameterNames_eq (h : Similar g trees trees') :
    parameterNames trees' = parameterNames trees :=
  flatMap_of_similar (h.pieces (separates_isPunct _ (by decide)))
    fun _ _ _ h => h.boundNames_eq

theorem opensBody_of_isIdent {tree : Tree} {word : String} (h : tree.isIdent word = true)
    (hw : word ≠ "static") : opensBody (some tree) = false := by
  obtain ⟨token, rfl, hk, ht⟩ := Tree.ident?_eq_some_iff.mp (of_decide_eq_true h)
  simp [Outline.opensBody, isPunct, Token.isPunct, isIdent, ident?, hk, ht, hw]

theorem separates_endsLoopNames : Separates endsLoopNames where
  alike ht := ht.endsLoopNames_eq
  leaf {tree} ht := by
    cases tree with
    | leaf token => exact ⟨token, rfl⟩
    | group => simp [endsLoopNames, isPunct, isIdent, ident?] at ht
  opensBody {tree} ht := by
    simp only [endsLoopNames, Bool.or_eq_true] at ht
    rcases ht with (ht | ht) | ht
    · exact (separates_isPunct _ (by decide)).opensBody ht
    · exact opensBody_of_isIdent ht (by decide)
    · exact opensBody_of_isIdent ht (by decide)

theorem takeWhile_eq_cutAt (separator : Tree → Bool) (trees : List Tree) :
    trees.takeWhile (!separator ·) = (Tree.cutAt separator trees).1 := by
  induction trees with
  | nil => rfl
  | cons tree trees ih =>
    rw [List.takeWhile_cons, Tree.cutAt]
    by_cases h : separator tree = true <;> simp [h, ih]

/-- The names that the head of a loop binds stay the same when it grows. -/
theorem Similar.loopNames_eq (h : Similar g trees trees') : loopNames trees' = loopNames trees := by
  obtain ⟨xs, xs', h⟩ := h
  cases h with
  | nil => rfl
  | @leaf _ _ token rest rest' _ _ h =>
    have ha := g.alike_leaf token
    have names : opensBody (some (.leaf token)) = false →
        parameterNames (rest'.takeWhile (!endsLoopNames ·)) =
          parameterNames (rest.takeWhile (!endsLoopNames ·)) := by
      intro ho
      rw [takeWhile_eq_cutAt, takeWhile_eq_cutAt]
      obtain ⟨ys, ys', h⟩ := h.similar ho
      obtain ⟨hf, -⟩ := h.cutAt separates_endsLoopNames
      exact Similar.parameterNames_eq hf
    simp only [loopNames, ha.isIdent_eq]
    split
    · rename_i hw
      rw [names (opensBody_of_isIdent hw (by decide))]
    · split
      · rename_i hw
        rw [Bool.or_eq_true] at hw
        have ho : opensBody (some (.leaf token)) = false := by
          rcases hw with hw | hw
          · exact opensBody_of_isIdent hw (by decide)
          · exact opensBody_of_isIdent hw (by decide)
        rw [names ho]
      · rfl
  | group => rfl
  | body hb => rcases hb with hb | hb <;> cases hb

end Outline

end DeferredLog
