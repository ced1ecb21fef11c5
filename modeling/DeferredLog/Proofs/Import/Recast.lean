import DeferredLog.Proofs.Import.Clause
import DeferredLog.Proofs.Outline.Nesting
import DeferredLog.Proofs.Tree.Recast

/-!
# Imports of recast trees

When names and punctuators keep their texts and every token moves the same way, the imports of a program
move with them. What strings hold matters only inside of an import, where they are its specifier and names
of what it introduces.

* `Relocates`: tokens that keep their texts and move.
* `Follows`: a reading of recast trees that follows the reading of the trees.
* `Import.clauses_relocate`: the imports with a clause.
-/

namespace DeferredLog

open DeferredLog.Tree

/-! ## Tokens that move -/

/-- A token that keeps its text, if it is a name or a punctuator, and whose ends move as told. -/
structure Relocates (g : Recast) (move : Nat → Nat) (token : Token) : Prop where
  /-- Its text is the same. -/
  keeps : g.Keeps token
  /-- It starts where its start goes. -/
  start : (g.token token).start = move token.start
  /-- It ends where its end goes. -/
  stop : (g.token token).stop = move token.stop

/-- Trees of such tokens. -/
def Relocated (g : Recast) (move : Nat → Nat) (trees : List Tree) : Prop :=
  ∀ token ∈ flattenAll trees, Relocates g move token

/-- Trees of which the strings keep their texts. -/
def Recites (g : Recast) (trees : List Tree) : Prop :=
  ∀ token ∈ flattenAll trees, token.kind = .string → (g.token token).text = token.text

variable {g : Recast} {move : Nat → Nat} {tree : Tree} {trees a b inside : List Tree}

namespace Relocated

theorem right (h : Relocated g move (a ++ b)) : Relocated g move b := fun token ht =>
  h token (by rw [flattenAll_append]; exact List.mem_append_right _ ht)

theorem tail (h : Relocated g move (tree :: trees)) : Relocated g move trees :=
  right (a := [tree]) h

theorem suffix (h : Relocated g move trees) (hs : b <:+ trees) : Relocated g move b := by
  obtain ⟨a, rfl⟩ := hs
  exact h.right

theorem of_group {delimiter : Delimiter} {opening closing : Token}
    (h : Relocated g move (.group delimiter opening closing inside :: trees)) :
    Relocated g move inside := fun token ht => h token (by simp [flattenAll, flatten, ht])

/-- Every tree looks the same. -/
theorem head (h : Relocated g move (tree :: trees)) : Alike tree (tree.map g.token) := by
  cases tree with
  | leaf token => exact (h token (by simp [flattenAll, flatten])).keeps.alike
  | group => exact g.alike_group ..

theorem start_head (h : Relocated g move (tree :: trees)) :
    (tree.map g.token).start = move tree.start := by
  cases tree with
  | leaf token => exact (h token (by simp [flattenAll, flatten])).start
  | group _ opening => exact (h opening (by simp [flattenAll, flatten])).start

theorem stop_head (h : Relocated g move (tree :: trees)) :
    (tree.map g.token).stop = move tree.stop := by
  cases tree with
  | leaf token => exact (h token (by simp [flattenAll, flatten])).stop
  | group _ _ closing => exact (h closing (by simp [flattenAll, flatten])).stop

end Relocated

namespace Recites

theorem left (h : Recites g (a ++ b)) : Recites g a := fun token ht =>
  h token (by rw [flattenAll_append]; exact List.mem_append_left _ ht)

theorem right (h : Recites g (a ++ b)) : Recites g b := fun token ht =>
  h token (by rw [flattenAll_append]; exact List.mem_append_right _ ht)

theorem tail (h : Recites g (tree :: trees)) : Recites g trees :=
  right (a := [tree]) h

theorem of_group {delimiter : Delimiter} {opening closing : Token}
    (h : Recites g (.group delimiter opening closing inside :: trees)) :
    Recites g inside := fun token ht => h token (by simp [flattenAll, flatten, ht])

/-- A string at the front keeps its text. -/
theorem head (h : Recites g (tree :: trees)) :
    (tree.map g.token).string?.map Import.specifierOf = tree.string?.map Import.specifierOf := by
  cases tree with
  | leaf token =>
    simp only [map_leaf, string?, g.kind]
    split
    · rename_i hk
      simp only [Option.map_some, Import.specifierOf, h token (by simp [flattenAll, flatten]) hk]
    · rfl
  | group => rfl

end Recites

/-! ## Names of a clause -/

namespace Import

theorem mem_flattenAll_of_mem_pieces {separator : Tree → Bool} {piece : List Tree}
    (h : piece ∈ pieces separator trees) : ∀ token ∈ flattenAll piece, token ∈ flattenAll trees := by
  induction trees generalizing piece with
  | nil =>
    rw [List.mem_singleton.mp h]
    exact fun _ ht => ht
  | cons tree trees ih =>
    have behind : ∀ {other}, other ∈ pieces separator trees → ∀ token ∈ flattenAll other,
        token ∈ flattenAll (tree :: trees) :=
      fun hm token ht => List.mem_append_right _ (ih hm token ht)
    rw [pieces] at h
    split at h
    · rcases List.mem_cons.mp h with rfl | h
      · intro token ht
        cases ht
      · exact behind h
    · split at h
      · rename_i hnone
        rw [List.mem_singleton.mp h]
        intro token ht
        exact List.mem_append_left _ (by simpa [flattenAll] using ht)
      · rename_i first rest hp
        rw [hp] at behind
        rcases List.mem_cons.mp h with rfl | h
        · intro token ht
          rcases List.mem_append.mp ht with ht | ht
          · exact List.mem_append_left _ ht
          · exact behind List.mem_cons_self token ht
        · exact behind (List.mem_cons_of_mem _ h)

theorem clauseName?_mapAll (h : Relocated g move trees) (hs : Recites g trees) :
    clauseName? (mapAll g.token trees) = clauseName? trees := by
  cases trees with
  | nil => rfl
  | cons first more =>
    have hfirst := hs.head
    have hident := h.head.ident?_eq
    simp only [mapAll_cons, clauseName?, List.head?_cons, Option.bind_eq_bind, Option.bind_some, hfirst,
      hident]
    match more with
    | [] => rfl
    | [_] => rfl
    | [word, renamed] =>
      have hword := h.tail.head.isIdent_eq "as"
      have hrenamed := h.tail.tail.head.ident?_eq
      simp only [mapAll_cons, mapAll_nil, hword, hrenamed]
    | _ :: _ :: _ :: _ => rfl

theorem namedClause_mapAll (h : Relocated g move trees) (hs : Recites g trees) :
    namedClause (mapAll g.token trees) = namedClause trees := by
  have hcomma : ∀ tree ∈ trees, isPunct "," (tree.map g.token) = isPunct "," tree := fun tree ht => by
    obtain ⟨a, b, rfl⟩ := List.append_of_mem ht
    exact h.right.head.isPunct_eq ","
  rw [namedClause, namedClause, betweenCommas, betweenCommas, pieces_mapAll hcomma, List.filterMap_map]
  refine List.filterMap_congr fun piece hp => ?_
  have hsub := mem_flattenAll_of_mem_pieces hp
  exact clauseName?_mapAll (fun token ht => h token (hsub token ht)) fun token ht => hs token (hsub token ht)

end Import

/-! ## Readings -/

/-- A reading of recast trees follows one of the trees: it fails where that fails, leaves the same trees,
and gives what is told of the result if the strings among the trees that were read keep their texts. -/
structure Follows {α : Type} (g : Recast) (f : α → α) (trees : List Tree)
    (outcome outcome' : Option (α × List Tree)) : Prop where
  /-- Nothing is read where nothing was. -/
  none : outcome = none → outcome' = none
  /-- What was read is read again, up to the texts of strings. -/
  some : ∀ a rest, outcome = some (a, rest) → rest <:+ trees ∧ ∃ a',
    outcome' = some (a', mapAll g.token rest) ∧
      ∀ front, trees = front ++ rest → Recites g front → a' = f a

namespace Follows

variable {α : Type} {f : α → α} {outcome outcome' : Option (α × List Tree)}

theorem fails : Follows g f trees Option.none Option.none :=
  ⟨fun _ => rfl, fun _ _ h => by cases h⟩

/-- More trees stand in front. -/
theorem behind (h : Follows g f trees outcome outcome') {more : List Tree} (hs : trees <:+ more) :
    Follows g f more outcome outcome' := by
  refine ⟨h.none, fun a rest hsome => ?_⟩
  obtain ⟨hsuffix, a', houtcome', hsame⟩ := h.some a rest hsome
  refine ⟨hsuffix.trans hs, a', houtcome', ?_⟩
  rintro front hfront hstrings
  obtain ⟨before, rfl⟩ := hs
  obtain ⟨middle, rfl⟩ := hsuffix
  rw [← List.append_assoc] at hfront
  obtain rfl := List.append_cancel_right hfront
  exact hsame middle rfl hstrings.right

/-- One more tree is read first, which adds to the result. -/
theorem cons {k k' : α → α} (h : Follows g id trees outcome outcome') (hk : Recites g [tree] → k' = k) :
    Follows g id (tree :: trees) (outcome.map fun r => (k r.1, r.2))
      (outcome'.map fun r => (k' r.1, r.2)) := by
  refine ⟨fun hnone => ?_, fun a rest hsome => ?_⟩
  · rw [h.none (Option.map_eq_none_iff.mp hnone)]
    rfl
  · obtain ⟨⟨a, rest⟩, houtcome, heq⟩ := Option.map_eq_some_iff.mp hsome
    cases heq
    obtain ⟨hsuffix, a', houtcome', hsame⟩ := h.some a rest houtcome
    refine ⟨hsuffix.trans (List.suffix_cons ..), k' a', by rw [houtcome']; rfl, ?_⟩
    rintro front hfront hstrings
    obtain ⟨before, rfl⟩ := hsuffix
    rw [← List.cons_append] at hfront
    obtain rfl := List.append_cancel_right hfront
    have hfirst : Recites g [tree] := Recites.left (b := before) hstrings
    rw [hk hfirst, hsame before rfl hstrings.tail]
    rfl

end Follows

namespace Import

theorem clause?_follows (h : Relocated g move trees) :
    Follows g id trees (clause? trees) (clause? (mapAll g.token trees)) := by
  induction hn : trees.length using Nat.strongRecOn generalizing trees with
  | _ n ih =>
  subst hn
  cases trees with
  | nil => exact .fails
  | cons tree trees =>
    have next := ih trees.length (by simp) h.tail rfl
    have hhead := h.head
    cases tree with
    | group d opening closing inside =>
      by_cases hd : d = .brace
      · subst hd
        rw [mapAll_cons, map_group, clause?_brace, clause?_brace]
        exact next.cons fun hstrings => by
          rw [namedClause_mapAll h.of_group hstrings.of_group]
      · rw [mapAll_cons, map_group, clause?_group hd, clause?_group hd]
        exact .fails
    | leaf token =>
      rw [map_leaf] at hhead
      rw [mapAll_cons, map_leaf, clause?.eq_def, clause?.eq_def (_ :: mapAll _ _)]
      simp only [hhead.isIdent_eq, hhead.isPunct_eq, hhead.ident?_eq, inside?]
      split
      · refine ⟨nofun, fun a rest hsome => ?_⟩
        cases hsome
        exact ⟨List.suffix_cons .., [], rfl, fun _ _ _ => rfl⟩
      cases hn : ident? (.leaf token) with
      | some name => exact next.cons fun _ => rfl
      | none =>
        dsimp only
        split
        · match trees with
          | [] => exact .fails
          | [_] => exact .fails
          | word :: renamed :: trees =>
            simp only [mapAll_cons, h.tail.tail.head.ident?_eq]
            cases renamed.ident? with
            | none => exact .fails
            | some name =>
              have hrest := ih trees.length (by simp; omega) h.tail.tail.tail rfl
              exact (hrest.behind ((List.suffix_cons renamed trees).trans (List.suffix_cons word _))).cons
                fun _ => rfl
        · split
          · exact next.behind (List.suffix_cons ..)
          · exact .fails

theorem behindWord?_relocate (h : Relocated g move trees) (word : String) :
    behindWord? word (mapAll g.token trees) = (behindWord? word trees).map (mapAll g.token) := by
  cases trees with
  | nil => rfl
  | cons tree trees =>
    rw [mapAll_cons, behindWord?, behindWord?, h.head.isIdent_eq]
    split <;> rfl

theorem exported?_relocate (h : Relocated g move trees) :
    exported? (mapAll g.token trees) = (exported? trees).map (mapAll g.token) := by
  cases trees with
  | nil => rfl
  | cons head tail =>
    simp only [mapAll_cons, exported?, h.head.isPunct_eq]
    split
    · cases tail with
      | nil => rfl
      | cons word rest =>
        simp only [mapAll_cons, h.tail.head.isIdent_eq, Option.map_some]
        split
        · cases rest <;> rfl
        · rfl
    · cases head with
      | leaf => rfl
      | group d => cases d <;> rfl

/-- The attributes and the semicolon of an import end where their ends go. -/
theorem clauseTail_relocate (h : Relocated g move trees) (stop : Nat) :
    clauseTail (move stop) (mapAll g.token trees) =
      (mapAll g.token (clauseTail stop trees).1, move (clauseTail stop trees).2) := by
  have attributes : pastAttributes (move stop) (mapAll g.token trees) =
      (mapAll g.token (pastAttributes stop trees).1, move (pastAttributes stop trees).2) := by
    match trees with
    | [] => rfl
    | [_] => rfl
    | word :: .leaf _ :: rest => rfl
    | word :: .group d opening closing inside :: rest =>
      cases d with
      | paren | bracket | template => rfl
      | brace =>
        have hstop := h.tail.stop_head
        rw [map_group, Tree.stop] at hstop
        simp only [mapAll_cons, map_group, pastAttributes, h.head.isIdent_eq]
        split
        · rw [hstop]
          rfl
        · rfl
  have hsuffix : (pastAttributes stop trees).1 <:+ trees := by
    unfold pastAttributes
    split
    · split
      · exact (List.suffix_cons ..).trans (List.suffix_cons ..)
      · exact List.suffix_refl _
    · exact List.suffix_refl _
  rw [clauseTail_eq, clauseTail_eq, attributes]
  have hrest := h.suffix hsuffix
  generalize pastAttributes stop trees = reached at hrest
  obtain ⟨rest, reached⟩ := reached
  dsimp only at hrest ⊢
  cases rest with
  | nil => rfl
  | cons tree rest =>
    simp only [mapAll_cons, pastSemicolon, hrest.head.isPunct_eq]
    split
    · rw [hrest.stop_head]
    · rfl

/-- No module is named where none was. -/
theorem named?_relocate_none {kind : ImportKind} {start start' : Nat} {names names' : List ImportName}
    (h : named? kind start names trees = none) :
    named? kind start' names' (mapAll g.token trees) = none := by
  cases trees with
  | nil => rfl
  | cons tree trees =>
    have hstring := string?_isSome_map g tree
    cases hs : tree.string? with
    | some token => simp [named?, hs] at h
    | none =>
      rw [hs, Option.isSome_none, Option.isSome_eq_false_iff, Option.isNone_iff_eq_none] at hstring
      simp [named?, hstring]

/-- A module is named where one was, by the same specifier if strings keep their texts. -/
theorem named?_relocate (h : Relocated g move trees) {kind : ImportKind} {start : Nat}
    {names : List ImportName} {record : Import} {rest : List Tree}
    (hn : named? kind start names trees = some (record, rest)) :
    ∃ specifier, (∀ names', named? kind (move start) names' (mapAll g.token trees) =
        some (⟨kind, ⟨move start, move record.span.stop⟩, some specifier, names'⟩, mapAll g.token rest)) ∧
      ∀ front, trees = front ++ rest → Recites g front → some specifier = record.specifier := by
  obtain ⟨front, last, hsplit, -⟩ := (named?_reaches hn).1.split
  cases trees with
  | nil => cases hn
  | cons tree more =>
    cases hs : tree.string? with
    | none => simp [named?, hs] at hn
    | some token =>
      obtain ⟨rfl, hk⟩ := string?_eq_some hs
      have hnew : (Tree.map g.token (.leaf token)).string? = some (g.token token) := by
        rw [map_leaf, string?, if_pos ((g.kind token).trans hk)]
      simp only [named?, List.head?_cons, hs, Option.bind_eq_bind, Option.bind_some, List.tail_cons,
        Option.pure_def, Option.some.injEq, Prod.mk.injEq] at hn
      obtain ⟨rfl, rfl⟩ := hn
      refine ⟨specifierOf (g.token token), fun names' => ?_, fun before hbefore hstrings => ?_⟩
      · simp only [mapAll_cons, named?, List.head?_cons, hnew, Option.bind_eq_bind, Option.bind_some,
          List.tail_cons, (h token (by simp [flattenAll, flatten])).stop,
          clauseTail_relocate h.tail token.stop, Option.pure_def]
      · cases before with
        | nil =>
          have hlength := congrArg List.length hsplit
          rw [hbefore] at hlength
          simp only [List.nil_append, List.length_append, List.length_cons] at hlength
          omega
        | cons first before =>
          obtain ⟨rfl, -⟩ := List.cons.inj hbefore
          have htext := hstrings token (by simp [flattenAll, flatten]) hk
          dsimp only
          rw [specifierOf, specifierOf, htext]

theorem named?_follows (h : Relocated g move trees) (kind : ImportKind) (start : Nat)
    (names : List ImportName) : Follows g (relocate move) trees (named? kind start names trees)
      (named? kind (move start) names (mapAll g.token trees)) := by
  refine ⟨named?_relocate_none, fun record rest hn => ?_⟩
  obtain ⟨hreaches, hkind, hnames, hstart⟩ := named?_reaches hn
  obtain ⟨specifier, hnew, hsame⟩ := named?_relocate h hn
  refine ⟨hreaches.suffix, _, hnew names, fun front hfront hstrings => ?_⟩
  rw [relocate, hkind, hnames, hstart, hsame front hfront hstrings]

theorem static?_follows (h : Relocated g move trees) (start : Nat) :
    Follows g (relocate move) trees (static? start trees)
      (static? (move start) (mapAll g.token trees)) := by
  have heffect := named?_follows h .sideEffect start []
  unfold static?
  cases hn : named? .sideEffect start [] trees with
  | some found =>
    obtain ⟨_, _, hnew, -⟩ := heffect.some _ _ hn
    rw [hn, hnew] at heffect
    rw [hnew]
    exact heffect
  | none =>
    rw [heffect.none hn]
    have hclause := clause?_follows h
    cases hc : clause? trees with
    | none =>
      rw [hclause.none hc]
      exact .fails
    | some found =>
      obtain ⟨names, middle⟩ := found
      obtain ⟨hsuffix, names', hnew, hnames⟩ := hclause.some _ _ hc
      simp only [hnew, Option.bind_some]
      cases hn : named? .static start names middle with
      | none =>
        rw [named?_relocate_none hn]
        exact .fails
      | some found =>
        obtain ⟨record, rest⟩ := found
        obtain ⟨hreaches, hkind, hsame, hstart⟩ := named?_reaches hn
        obtain ⟨specifier, hnew, hspecifier⟩ := named?_relocate (h.suffix hsuffix) hn
        rw [hnew]
        refine ⟨nofun, fun _ _ he => ?_⟩
        cases he
        refine ⟨hreaches.suffix.trans hsuffix, _, rfl, fun front hfront hstrings => ?_⟩
        obtain ⟨first, rfl⟩ := hsuffix
        obtain ⟨second, rfl⟩ := hreaches.suffix
        rw [← List.append_assoc] at hfront
        obtain rfl := List.append_cancel_right hfront
        rw [relocate, hkind, hsame, hstart, hspecifier second rfl hstrings.right,
          hnames first rfl hstrings.left]
        rfl

theorem reExport?_follows (h : Relocated g move trees) (start : Nat) :
    Follows g (relocate move) trees (reExport? start trees)
      (reExport? (move start) (mapAll g.token trees)) := by
  rw [reExport?_eq, reExport?_eq, exported?_relocate h]
  cases he : exported? trees with
  | none => exact .fails
  | some rest =>
    have hrest := exported?_suffix he
    simp only [Option.map_some, Option.bind_some, behindWord?_relocate (h.suffix hrest)]
    cases hb : behindWord? "from" rest with
    | none => exact .fails
    | some more =>
      have hmore := (behindWord?_suffix hb).trans hrest
      exact (named?_follows (h.suffix hmore) .reExport start []).behind hmore

/-- The import that starts with a tree follows. -/
theorem at?_follows (h : Relocated g move (tree :: trees)) :
    Follows g (relocate move) trees (at? tree trees) (at? (tree.map g.token) (mapAll g.token trees)) := by
  unfold at?
  rw [h.head.isIdent_eq, h.head.isIdent_eq, h.start_head]
  split
  · exact static?_follows h.tail _
  · split
    · exact reExport?_follows h.tail _
    · exact .fails

/-- **The imports with a clause move with their tokens** if the strings inside of them keep their
texts. -/
theorem clauses_relocate (h : Relocated g move trees) (hordered : Token.Ordered (flattenAll trees))
    (hstrings : ∀ token ∈ flattenAll trees, token.kind = .string →
      (∃ record ∈ clauses 0 trees, record.span.contains token.start = true) →
      (g.token token).text = token.text) :
    clauses 0 (mapAll g.token trees) = (clauses 0 trees).map (relocate move) := by
  induction trees using clauses_induction with
  | nil => rfl
  | found tree trees record rest hat ih =>
    obtain ⟨hsuffix, record', hat', hsame⟩ := (at?_follows h).some _ _ hat
    obtain ⟨hreaches, hstart⟩ := at?_reaches hat
    obtain ⟨front, last, hsplit, -, hstop⟩ := hreaches.split
    have hclauses := clauses_of_at? hat
    -- The strings that the import is read from stand inside of its bytes.
    have hread : Recites g (front ++ [last]) := by
      intro token ht hk
      have hmem : token ∈ flattenAll (tree :: trees) := by
        rw [hsplit, List.append_cons]
        simp only [flattenAll, flattenAll_append, List.mem_append] at ht ⊢
        exact .inr (.inl ht)
      refine hstrings token hmem hk ⟨record, hclauses ▸ List.mem_cons_self, ?_⟩
      obtain ⟨first, hf, hfirst, -⟩ := head?_flatten tree
      obtain ⟨final, hl, hfinal⟩ := getLast?_flatten last
      have hhead : (flattenAll (tree :: trees)).head? = some first := by
        rw [flattenAll, List.head?_append, hf]
        rfl
      have hlast : (flattenAll (front ++ [last])).getLast? = some final := by
        rw [flattenAll_append, List.getLast?_append, flattenAll, flattenAll, List.append_nil, hl]
        rfl
      have hle := hordered.start_le_of_head? hhead hmem
      rw [hsplit, List.append_cons, flattenAll, flattenAll_append] at hordered
      have hlt := hordered.right.left.nonempty token ht
      have hge := hordered.right.left.stop_le_of_getLast? hlast ht
      rw [Span.contains, Bool.and_eq_true, decide_eq_true_eq, decide_eq_true_eq]
      omega
    rw [hclauses, mapAll_cons, clauses_of_at? hat', List.map_cons,
      hsame (front ++ [last]) (by rw [hsplit, List.append_cons]) hread]
    rw [hclauses] at hstrings
    have hrest : ∀ token ∈ flattenAll rest, token ∈ flattenAll (tree :: trees) := fun token ht => by
      rw [hsplit]
      simp [flattenAll, ht]
    have hlater : Token.Ordered (flattenAll rest) := by
      rw [hsplit, List.append_cons, flattenAll, flattenAll_append] at hordered
      exact hordered.right.right
    rw [ih (h.tail.suffix hsuffix) hlater fun token ht hk ⟨r, hr, hc⟩ =>
      hstrings token (hrest token ht) hk ⟨r, List.mem_cons_of_mem _ hr, hc⟩]
  | none tree trees hat ih =>
    rw [clauses_of_at?_none hat, mapAll_cons, clauses_of_at?_none ((at?_follows h).none hat)]
    rw [clauses_of_at?_none hat] at hstrings
    exact ih h.tail (Token.Ordered.right hordered) fun token ht =>
      hstrings token (List.mem_append_right _ ht)

end Import

end DeferredLog
