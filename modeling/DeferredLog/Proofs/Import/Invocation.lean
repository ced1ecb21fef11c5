import DeferredLog.Proofs.Import.Clause
import DeferredLog.Proofs.Program.Parses
import DeferredLog.Proofs.Tree.Pieces

/-!
# Imports of a program with invocations

Invocations stand behind calls of members, and no import has such a call where it is looked at. So a
program with invocations has the same imports as before, with the same names, only moved.

* `Import.mayOccur_of_woven`: the quick test still succeeds.
* `Import.clauses_invoked`: the imports with a clause.
-/

namespace DeferredLog

open DeferredLog.Tree
open Rewrite (shift)

/-! ## The quick test -/

namespace Text

theorem hasWord_of_woven {words : List (List Char)} (hw : ∀ w ∈ words, w ≠ [] ∧ ')' ∉ w)
    {cs cs' : List Char} (h : Woven cs cs') {before : Option Char}
    (hc : hasWord words before cs = true) : hasWord words before cs' = true := by
  induction h generalizing before with
  | nil => cases hc
  | @cons c cs cs' h ih =>
    rw [hasWord, Bool.or_eq_true] at hc ⊢
    refine hc.imp (fun hc => ?_) ih
    simp only [Bool.and_eq_true, List.any_eq_true] at hc ⊢
    refine ⟨hc.1, hc.2.imp fun w ⟨hm, hpre, hnext⟩ => ⟨hm, ?_, ?_⟩⟩
    · rwa [h.cons.isPrefixOf_eq (hw w hm).2]
    · obtain ⟨t, ht⟩ := List.isPrefixOf_iff_prefix.mp hpre
      have hwoven : Woven (w ++ t) (c :: cs') := ht ▸ h.cons
      obtain ⟨t', ht', hrest⟩ := hwoven.behind (hw w hm).2
      rw [ht', List.drop_left, hrest.head?_eq]
      rwa [← ht, List.drop_left] at hnext
  | @insert cs cs' h ih =>
    rw [hasWord, Bool.or_eq_true] at hc
    rcases hc with hc | hc
    · -- No word starts with the parenthesis.
      simp only [Bool.and_eq_true, List.any_eq_true] at hc
      obtain ⟨-, w, hm, hpre, -⟩ := hc
      obtain ⟨hne, hparen⟩ := hw w hm
      obtain ⟨d, w, rfl⟩ := List.exists_cons_of_ne_nil hne
      simp only [List.isPrefixOf, Bool.and_eq_true, beq_iff_eq] at hpre
      exact absurd (hpre.1 ▸ List.mem_cons_self) hparen
    · simp [hasWord, ih hc]

end Text

namespace Import

theorem mayOccur_of_woven {source source' : List Char} (h : Text.Woven source source')
    (hc : mayOccur source = true) : mayOccur source' = true :=
  Text.hasWord_of_woven (by decide) h hc

/-! ## Single imports -/

variable {stops : List Nat} {dot level : Option Tree} {trees rest : List Tree} {tree : Tree}

/-- An import with its ends moved. -/
def moved (stops : List Nat) (record : Import) : Import :=
  { record with span := ⟨shift stops record.span.start, shift stops record.span.stop⟩ }

/-- Whether the trees that an import can end with end where their ends go. -/
def Settled (stops : List Nat) (trees : List Tree) : Prop :=
  ∀ tree ∈ trees, Ending tree → ∀ tree' ∈ tree.invoked stops, tree'.stop = shift stops tree.stop

theorem Settled.suffix (h : Settled stops trees) (hs : rest <:+ trees) : Settled stops rest :=
  fun tree ht => h tree (hs.subset ht)

theorem placed_suffix (h : Placed stops dot level trees) (hs : rest <:+ trees) :
    ∃ dot level, Placed stops dot level rest := by
  obtain ⟨front, rfl⟩ := hs
  induction front generalizing dot level with
  | nil => exact ⟨_, _, h⟩
  | cons tree front ih => exact ih h.2

/-- Behind what is no name no tree is invoked. -/
theorem invoked_of_not_level {delimiter : Delimiter} {a b : Token} {inside : List Tree}
    (h : (group delimiter a b inside).Held stops dot level)
    (hn : delimiter ≠ .paren ∨ dot.any (Tree.isPunct ".") = false ∨
      level.any (·.ident?.isSome) = false) :
    invoked stops (.group delimiter a b inside) =
      [.group delimiter (a.moved stops) (b.moved stops) (invokedAll stops inside)] := by
  refine invoked_group_of_notMem fun hm => ?_
  obtain ⟨h₁, h₂, h₃⟩ := h.1 hm
  rcases hn with hn | hn | hn
  · exact hn h₁
  · rw [h₂] at hn
    cases hn
  · rw [h₃] at hn
    cases hn

theorem invokedAll_leaf (token : Token) (trees : List Tree) :
    invokedAll stops (.leaf token :: trees) = .leaf (token.moved stops) :: invokedAll stops trees :=
  rfl

/-- What grows behind a group. -/
theorem invokedAll_group (stops : List Nat) (delimiter : Delimiter) (a b : Token) (inside trees : List Tree) :
    ∃ more, invokedAll stops (.group delimiter a b inside :: trees) =
      .group delimiter (a.moved stops) (b.moved stops) (invokedAll stops inside) :: more :=
  ⟨_, rfl⟩

theorem behindWord?_invoked (word : String) (trees : List Tree) :
    behindWord? word (invokedAll stops trees) = (behindWord? word trees).map (invokedAll stops) := by
  cases trees with
  | nil => rfl
  | cons tree trees =>
    cases tree with
    | leaf token =>
      have : isIdent word (.leaf (token.moved stops)) = isIdent word (.leaf token) := rfl
      simp only [invokedAll_leaf, behindWord?, this]
      split <;> rfl
    | group => rfl

theorem pastSemicolon_invoked (hs : Settled stops trees) (stop : Nat) :
    pastSemicolon (shift stops stop) (invokedAll stops trees) =
      (invokedAll stops (pastSemicolon stop trees).1, shift stops (pastSemicolon stop trees).2) := by
  cases trees with
  | nil => rfl
  | cons tree trees =>
    cases tree with
    | leaf token =>
      have hp : isPunct ";" (.leaf (token.moved stops)) = isPunct ";" (.leaf token) := rfl
      rw [invokedAll_leaf, pastSemicolon, hp, pastSemicolon]
      split
      · rename_i hsemi
        rw [hs _ List.mem_cons_self (.inr (.inr hsemi)) _ List.mem_cons_self]
      · rfl
    | group => rfl

theorem pastAttributes_subset (stop : Nat) (trees : List Tree) :
    (pastAttributes stop trees).1 ⊆ trees := by
  unfold pastAttributes
  split
  · split
    · exact fun t ht => List.mem_cons_of_mem _ (List.mem_cons_of_mem _ ht)
    · exact fun _ ht => ht
  · exact fun _ ht => ht

theorem pastAttributes_invoked (hp : Placed stops dot level trees) (hs : Settled stops trees)
    (stop : Nat) : pastAttributes (shift stops stop) (invokedAll stops trees) =
      (invokedAll stops (pastAttributes stop trees).1, shift stops (pastAttributes stop trees).2) := by
  cases trees with
  | nil => rfl
  | cons word trees =>
    cases word with
    | group d a b inside =>
      have plain : ∀ {s : Nat} {d : Delimiter} {a b : Token} {inside trees : List Tree},
          pastAttributes s (.group d a b inside :: trees) = (.group d a b inside :: trees, s) := by
        intro s d a b inside trees
        unfold pastAttributes
        split
        · rename_i he
          cases he
          rfl
        · rfl
      obtain ⟨more, hmore⟩ := invokedAll_group stops d a b inside trees
      rw [plain, hmore, plain, ← hmore]
    | leaf token =>
      cases trees with
      | nil => rfl
      | cons next trees =>
        cases next with
        | leaf => rfl
        | group d a b inside =>
          have hunmarked := invoked_of_not_level hp.2.1
          cases d with
          | brace =>
            have hgroup := hunmarked (.inl (by decide))
            have hend : (b.moved stops).stop = shift stops b.stop :=
              hs (.group .brace a b inside) (by simp)
                (.inr (.inl (by simp [Outline.isGroup, inside?])))
                (.group .brace (a.moved stops) (b.moved stops) (invokedAll stops inside))
                (by rw [hgroup]; exact List.mem_singleton_self _)
            have hword : ∀ w, isIdent w (.leaf (token.moved stops)) = isIdent w (.leaf token) :=
              fun _ => rfl
            have hall : invokedAll stops (.leaf token :: .group .brace a b inside :: trees) =
                .leaf (token.moved stops) :: .group .brace (a.moved stops) (b.moved stops)
                  (invokedAll stops inside) :: invokedAll stops trees := by
              rw [invokedAll_leaf, invokedAll_cons, hgroup]
              rfl
            rw [hall, pastAttributes, pastAttributes, hword, hword]
            split
            · rw [hend]
            · rw [← hall]
          | paren | bracket | template => rfl

theorem named?_invoked (hp : Placed stops dot level trees) (hs : Settled stops trees)
    (kind : ImportKind) (start : Nat) (names : List ImportName) :
    named? kind (shift stops start) names (invokedAll stops trees) =
      (named? kind start names trees).map fun r => (r.1.moved stops, invokedAll stops r.2) := by
  cases trees with
  | nil => rfl
  | cons tree trees =>
    cases tree with
    | group => rfl
    | leaf token =>
      by_cases hk : token.kind = .string
      · have hstring : string? (.leaf token) = some token := by simp [string?, hk]
        have hend : (token.moved stops).stop = shift stops token.stop :=
          hs _ List.mem_cons_self (.inl (by rw [hstring]; rfl)) _ List.mem_cons_self
        have htail : clauseTail (shift stops token.stop) (invokedAll stops trees) =
            (invokedAll stops (clauseTail token.stop trees).1,
              shift stops (clauseTail token.stop trees).2) := by
          have hmore : Settled stops trees := hs.suffix (List.suffix_cons ..)
          have hrest : Settled stops (pastAttributes token.stop trees).1 :=
            fun t ht => hmore t (pastAttributes_subset _ _ ht)
          rw [clauseTail_eq, clauseTail_eq, pastAttributes_invoked hp.2 hmore,
            pastSemicolon_invoked hrest]
        have hstring' : string? (.leaf (token.moved stops)) = some (token.moved stops) := by
          simp [string?, Token.moved, hk]
        have hspecifier : specifierOf (token.moved stops) = specifierOf token := rfl
        rw [invokedAll_leaf]
        simp [named?, hstring, hstring', hend, htail, hspecifier, moved]
      · have hnone : string? (.leaf token) = none := by simp [string?, hk]
        have hnone' : string? (.leaf (token.moved stops)) = none := by
          simp [string?, Token.moved, hk]
        rw [invokedAll_leaf]
        simp [named?, hnone, hnone']

/-! ## Names -/

theorem length_le_invokedAll (stops : List Nat) (trees : List Tree) :
    trees.length ≤ (invokedAll stops trees).length := by
  induction trees with
  | nil => exact Nat.le_refl 0
  | cons tree trees ih =>
    cases tree with
    | leaf =>
      rw [invokedAll_leaf]
      simpa using ih
    | group d a b inside =>
      simp only [invokedAll_cons, invoked, List.length_append, List.length_cons]
      omega

/-- A piece of a clause has one tree, or three. -/
theorem clauseName?_eq_none {piece : List Tree} (h : piece.length = 2 ∨ 3 < piece.length) :
    clauseName? piece = none := by
  unfold clauseName?
  simp only [Option.bind_eq_bind, Option.bind_eq_none_iff]
  intro _ _ _ _
  split
  · simp at h
  · simp at h
  · rfl

/-- A piece of a clause starts with a name or a string. -/
theorem clauseName?_group (d : Delimiter) (a b : Token) (inside more : List Tree) :
    clauseName? (.group d a b inside :: more) = none := rfl

theorem specifierOf_moved (stops : List Nat) (token : Token) :
    (string? (.leaf (token.moved stops))).map specifierOf = (string? (.leaf token)).map specifierOf := by
  have hkind : (token.moved stops).kind = token.kind := rfl
  simp only [string?, hkind]
  split <;> rfl

/-- A piece whose third tree is a group introduces no name. -/
theorem clauseName?_group_last (first word : Tree) (d : Delimiter) (a b : Token)
    (inside : List Tree) : clauseName? [first, word, .group d a b inside] = none := by
  simp [clauseName?, ident?]

theorem clauseName?_group_middle (first renamed : Tree) (d : Delimiter) (a b : Token)
    (inside : List Tree) : clauseName? [first, .group d a b inside, renamed] = none := by
  simp [clauseName?, isIdent, ident?]

theorem clauseName?_invoked {piece : List Tree} (hp : Placed stops dot level piece)
    (hdot : level.any (Tree.isPunct ".") = false) :
    clauseName? (invokedAll stops piece) = clauseName? piece := by
  rcases piece with _ | ⟨first, more⟩
  · rfl
  cases first with
  | group d a b inside =>
    obtain ⟨tail, htail⟩ := invokedAll_group stops d a b inside more
    rw [htail, clauseName?_group, clauseName?_group]
  | leaf token =>
    have hname (t : Token) : ident? (.leaf (t.moved stops)) = ident? (.leaf t) := rfl
    have hstring (t : Token) := specifierOf_moved stops t
    rw [invokedAll_leaf]
    rcases more with _ | ⟨word, _ | ⟨renamed, _ | ⟨fourth, more⟩⟩⟩
    · simp [clauseName?, hname, hstring]
    · rw [clauseName?_eq_none (Or.inl (rfl : [_, _].length = 2))]
      cases word with
      | leaf => exact clauseName?_eq_none (.inl rfl)
      | group d a b inside =>
        rw [invokedAll_cons, invoked_of_not_level hp.2.1 (.inr (.inl hdot))]
        exact clauseName?_eq_none (.inl rfl)
    · cases word with
      | leaf word =>
        rw [invokedAll_leaf]
        cases renamed with
        | leaf renamed =>
          rw [invokedAll_leaf]
          simp [clauseName?, hname, hstring, isIdent]
        | group d a b inside =>
          rw [clauseName?_group_last, invokedAll_cons]
          by_cases hm : b.stop ∈ stops
          · rw [invoked_group_of_mem hm]
            exact clauseName?_eq_none (.inr (by simp))
          · rw [invoked_group_of_notMem hm]
            exact clauseName?_group_last ..
      | group d a b inside =>
        rw [clauseName?_group_middle, invokedAll_cons,
          invoked_of_not_level hp.2.1 (.inr (.inl hdot))]
        cases renamed with
        | leaf => exact clauseName?_group_middle ..
        | group d' a' b' inside' =>
          rw [invokedAll_cons, invoked_of_not_level hp.2.2.1 (.inr (.inr rfl))]
          exact clauseName?_group_middle ..
    · have hlength := length_le_invokedAll stops (word :: renamed :: fourth :: more)
      rw [List.length_cons, List.length_cons, List.length_cons] at hlength
      have hlong : 3 < (leaf (token.moved stops) ::
          invokedAll stops (word :: renamed :: fourth :: more)).length := by
        rw [List.length_cons]
        omega
      rw [clauseName?_eq_none (.inr hlong), clauseName?_eq_none (.inr (by simp))]

theorem not_comma_invoked (h : Tree.isPunct "," tree = false) :
    ∀ t ∈ tree.invoked stops, Tree.isPunct "," t = false := by
  intro t ht
  cases tree with
  | leaf token =>
    obtain rfl := List.mem_singleton.mp ht
    exact h
  | group d a b inside =>
    rw [invoked] at ht
    rcases List.mem_cons.mp ht with rfl | ht
    · rfl
    · split at ht
      · obtain rfl := List.mem_singleton.mp ht
        rfl
      · cases ht

/-- Pieces between commas grow one by one. -/
theorem betweenCommas_invoked (stops : List Nat) (trees : List Tree) :
    betweenCommas (invokedAll stops trees) = (betweenCommas trees).map (invokedAll stops) := by
  induction trees with
  | nil => rfl
  | cons tree trees ih =>
    obtain ⟨first, others, hfirst⟩ := List.exists_cons_of_ne_nil (betweenCommas_ne_nil trees)
    rw [hfirst, List.map_cons] at ih
    by_cases hcomma : Tree.isPunct "," tree = true
    · obtain ⟨token, rfl, -⟩ := Tree.isPunct_iff.mp hcomma
      have hcomma' : Tree.isPunct "," (.leaf (token.moved stops)) = true := hcomma
      unfold betweenCommas at *
      rw [invokedAll_leaf]
      simp [pieces, hcomma, hcomma', ih, hfirst]
    · have hcomma := Bool.not_eq_true _ ▸ hcomma
      have hall : betweenCommas (tree :: trees) = (tree :: first) :: others :=
        pieces_append (List.forall_mem_singleton.mpr (by simpa using hcomma)) hfirst
      rw [invokedAll_cons, hall]
      exact pieces_append (not_comma_invoked hcomma) ih

/-- What is placed among trees is placed in the pieces between commas. -/
theorem placed_pieces (hp : Placed stops dot level trees) {first : List Tree}
    {others : List (List Tree)} (h : betweenCommas trees = first :: others) :
    Placed stops dot level first ∧ ∀ piece ∈ others, ∃ dot level, Placed stops dot level piece ∧
      level.any (Tree.isPunct ".") = false := by
  induction trees generalizing dot level first others with
  | nil =>
    cases h
    exact ⟨trivial, by simp⟩
  | cons tree trees ih =>
    obtain ⟨first', others', hfirst⟩ := List.exists_cons_of_ne_nil (betweenCommas_ne_nil trees)
    obtain ⟨hplaced, hothers⟩ := ih hp.2 hfirst
    by_cases hcomma : Tree.isPunct "," tree = true
    · have hall : betweenCommas (tree :: trees) = [] :: first' :: others' := by
        unfold betweenCommas at *
        simp [pieces, hcomma, hfirst]
      rw [hall] at h
      cases h
      refine ⟨trivial, fun piece hpiece => ?_⟩
      rcases List.mem_cons.mp hpiece with rfl | hpiece
      · refine ⟨_, _, hplaced, ?_⟩
        simpa using isPunct_ne hcomma (by decide)
      · exact hothers piece hpiece
    · have hall : betweenCommas (tree :: trees) = (tree :: first') :: others' :=
        pieces_append (List.forall_mem_singleton.mpr (by simpa using hcomma)) hfirst
      rw [hall] at h
      cases h
      exact ⟨⟨hp.1, hplaced⟩, hothers⟩

/-- The names of a clause in braces. -/
theorem namedClause_invoked (hp : Placed stops none none trees) :
    namedClause (invokedAll stops trees) = namedClause trees := by
  obtain ⟨first, others, hfirst⟩ := List.exists_cons_of_ne_nil (betweenCommas_ne_nil trees)
  obtain ⟨hplaced, hothers⟩ := placed_pieces hp hfirst
  rw [namedClause, namedClause, betweenCommas_invoked, List.filterMap_map]
  refine List.filterMap_congr fun piece hpiece => ?_
  rw [hfirst] at hpiece
  rcases List.mem_cons.mp hpiece with rfl | hpiece
  · exact clauseName?_invoked hplaced rfl
  · obtain ⟨dot, level, hpiece, hdot⟩ := hothers piece hpiece
    exact clauseName?_invoked hpiece hdot

/-! ## Clauses -/

/-- Where no call can end there is one tree, of the same text. -/
theorem exists_invoked (h : tree.Held stops dot level)
    (hn : dot.any (Tree.isPunct ".") = false ∨ level.any (·.ident?.isSome) = false) :
    ∃ tree', tree.invoked stops = [tree'] ∧ tree'.ident? = tree.ident? ∧
      ∀ word, tree'.isIdent word = tree.isIdent word := by
  cases tree with
  | leaf token => exact ⟨.leaf (token.moved stops), rfl, rfl, fun _ => rfl⟩
  | group d a b inside =>
    exact ⟨_, invoked_of_not_level h (.inr hn), rfl, fun _ => rfl⟩

/-- The names of a clause, and the trees behind it. -/
theorem clause?_invoked (hp : Placed stops dot level trees) :
    clause? (invokedAll stops trees) = (clause? trees).map fun r => (r.1, invokedAll stops r.2) := by
  induction hn : trees.length using Nat.strongRecOn generalizing trees dot level with
  | _ n ih =>
  subst hn
  cases trees with
  | nil => rfl
  | cons tree trees =>
    have next := ih trees.length (by simp) hp.2 rfl
    cases tree with
    | group d a b inside =>
      by_cases hd : d = .brace
      · subst hd
        rw [invokedAll_cons, invoked_of_not_level hp.1 (.inl (by decide)), List.singleton_append,
          clause?_brace, clause?_brace, namedClause_invoked hp.1.2, next]
        simp [Option.map_map, Function.comp_def]
      · obtain ⟨more, hmore⟩ := invokedAll_group stops d a b inside trees
        rw [hmore, clause?_group hd, clause?_group hd]
        rfl
    | leaf token =>
      have hident (w : String) : isIdent w (.leaf (token.moved stops)) = isIdent w (.leaf token) := rfl
      have hname : ident? (.leaf (token.moved stops)) = ident? (.leaf token) := rfl
      have hpunct (p : String) : Tree.isPunct p (.leaf (token.moved stops)) =
          Tree.isPunct p (.leaf token) := rfl
      rw [invokedAll_leaf, clause?.eq_def, clause?.eq_def (_ :: trees)]
      simp only [hident, hname, hpunct, inside?]
      split
      · rfl
      cases hn : ident? (.leaf token) with
      | some name => simp [next, Option.map_map, Function.comp_def]
      | none =>
        dsimp only
        split
        · -- Neither the word behind the star nor the name ends a call.
          rename_i hstar
          cases trees with
          | nil => rfl
          | cons word trees =>
            obtain ⟨word', hword, -⟩ := exists_invoked hp.2.1 (.inr (by simp [hn]))
            rw [invokedAll_cons, hword]
            cases trees with
            | nil => rfl
            | cons renamed trees =>
              have hdot : (some (Tree.leaf token)).any (Tree.isPunct ".") = false := by
                simpa using isPunct_ne hstar (by decide)
              obtain ⟨renamed', hrenamed, hname', -⟩ := exists_invoked hp.2.2.1 (.inl hdot)
              rw [invokedAll_cons, hrenamed]
              simp only [List.singleton_append, hname']
              cases renamed.ident? with
              | none => rfl
              | some name =>
                have := ih trees.length (by simp; omega) hp.2.2.2 rfl
                simp [this, Option.map_map, Function.comp_def]
        · split
          · exact next
          · rfl

/-- The trees behind what a re-export names. -/
theorem exported?_invoked (hp : Placed stops dot level trees) :
    exported? (invokedAll stops trees) = (exported? trees).map (invokedAll stops) := by
  cases trees with
  | nil => rfl
  | cons head trees =>
    cases head with
    | group d a b inside =>
      cases d with
      | brace =>
        rw [invokedAll_cons, invoked_of_not_level hp.1 (.inl (by decide))]
        rfl
      | paren | bracket | template => rfl
    | leaf token =>
      have hpunct : Tree.isPunct "*" (.leaf (token.moved stops)) =
          Tree.isPunct "*" (.leaf token) := rfl
      rw [invokedAll_leaf]
      simp only [exported?, hpunct]
      split
      · -- Neither the word behind the star nor the name ends a call.
        rename_i hstar
        cases trees with
        | nil => rfl
        | cons word trees =>
          have hn : ident? (.leaf token) = none := ident?_of_isPunct hstar
          obtain ⟨word', hword, -, hident⟩ := exists_invoked hp.2.1 (.inr (by simp [hn]))
          rw [invokedAll_cons, hword]
          simp only [List.singleton_append, hident, Option.map_some]
          split
          · cases trees with
            | nil => rfl
            | cons renamed trees =>
              have hdot : (some (Tree.leaf token)).any (Tree.isPunct ".") = false := by
                simpa using isPunct_ne hstar (by decide)
              obtain ⟨renamed', hrenamed, -⟩ := exists_invoked hp.2.2.1 (.inl hdot)
              rw [invokedAll_cons, hrenamed]
              rfl
          · rw [invokedAll_cons, hword]
            rfl
      · rfl

/-! ## All imports -/

/-- The import that starts with a word has the same names, moved. -/
theorem at?_invoked {token : Token} (hp : Placed stops dot level trees)
    (hs : Settled stops trees) (hstart : (token.moved stops).start = shift stops token.start) :
    at? (.leaf (token.moved stops)) (invokedAll stops trees) =
      (at? (.leaf token) trees).map fun r => (r.1.moved stops, invokedAll stops r.2) := by
  have hident (w : String) : isIdent w (.leaf (token.moved stops)) = isIdent w (.leaf token) := rfl
  have named (kind : ImportKind) (names : List ImportName) {rest : List Tree}
      (hr : rest <:+ trees) : named? kind (shift stops token.start) names (invokedAll stops rest) =
        (named? kind token.start names rest).map fun r => (r.1.moved stops, invokedAll stops r.2) := by
    obtain ⟨dot, level, hp⟩ := placed_suffix hp hr
    exact named?_invoked hp (hs.suffix hr) kind token.start names
  unfold at?
  simp only [hident, Tree.start, hstart]
  split
  · unfold static?
    rw [named _ _ (List.suffix_refl trees), clause?_invoked hp]
    cases named? .sideEffect token.start [] trees with
    | some found => rfl
    | none =>
      cases hc : clause? trees with
      | none => rfl
      | some found => exact named _ _ (clause?_suffix hc)
  · split
    · rw [reExport?_eq, reExport?_eq, exported?_invoked hp]
      cases he : exported? trees with
      | none => rfl
      | some rest =>
        simp only [Option.map_some, Option.bind_some, behindWord?_invoked]
        cases hb : behindWord? "from" rest with
        | none => rfl
        | some more => exact named _ _ ((behindWord?_suffix hb).trans (exported?_suffix he))
    · rfl

theorem at?_group (d : Delimiter) (a b : Token) (inside rest : List Tree) :
    at? (.group d a b inside) rest = none := rfl

/-- **The imports of a program with invocations** are the same, moved. -/
theorem clauses_invoked (hp : Placed stops dot level trees) (hs : Settled stops trees)
    (hstart : ∀ token, .leaf token ∈ trees → (token.moved stops).start = shift stops token.start) :
    clauses 0 (invokedAll stops trees) = (clauses 0 trees).map (moved stops) := by
  induction trees using clauses_induction generalizing dot level with
  | nil => rfl
  | found tree trees record rest hat ih =>
    obtain ⟨token, rfl⟩ : ∃ token, tree = .leaf token := by
      cases tree with
      | leaf token => exact ⟨token, rfl⟩
      | group => cases hat
    have hsuffix := (at?_reaches hat).1.suffix
    have hmore : Settled stops trees := hs.suffix (List.suffix_cons ..)
    have hat' := at?_invoked hp.2 hmore (hstart token List.mem_cons_self)
    rw [hat, Option.map_some] at hat'
    obtain ⟨dot, level, hrest⟩ := placed_suffix hp.2 hsuffix
    rw [invokedAll_leaf, clauses_of_at? hat', clauses_of_at? hat, List.map_cons,
      ih hrest (hmore.suffix hsuffix) fun t ht =>
        hstart t (List.mem_cons_of_mem _ (hsuffix.subset ht))]
  | none tree trees hat ih =>
    have ih := ih hp.2 (hs.suffix (List.suffix_cons ..))
      fun t ht => hstart t (List.mem_cons_of_mem _ ht)
    rw [clauses_of_at?_none hat, ← ih]
    cases tree with
    | leaf token =>
      have hat' := at?_invoked hp.2 (hs.suffix (List.suffix_cons ..)) (hstart token List.mem_cons_self)
      rw [hat, Option.map_none] at hat'
      rw [invokedAll_leaf, clauses_of_at?_none hat']
    | group d a b inside =>
      rw [invokedAll_cons, invoked]
      split
      · rw [List.cons_append, List.cons_append, clauses_of_at?_none (at?_group ..)]
        exact clauses_of_at?_none (at?_group ..)
      · exact clauses_of_at?_none (at?_group ..)

end Import

end DeferredLog
