import DeferredLog.Proofs.Tree.Paired

/-!
# Trees with their tokens replaced

`Tree.map` replaces each token of a tree by another one. Tokens of the same kinds pair up as before, so
the trees of the replaced tokens are the trees with the tokens replaced.

* `Tree.flattenAll_mapAll`: the tokens of such trees.
* `Tree.ofTokens_map`: the trees of such tokens.
-/

namespace DeferredLog

namespace Tree

mutual

/-- The tree with each token replaced. -/
def map (f : Token → Token) : Tree → Tree
  | .leaf token => .leaf (f token)
  | .group delimiter opening closing trees =>
    .group delimiter (f opening) (f closing) (mapAll f trees)

/-- The trees with each token replaced. -/
def mapAll (f : Token → Token) : List Tree → List Tree
  | [] => []
  | tree :: trees => tree.map f :: mapAll f trees

end

variable (f : Token → Token)

@[simp]
theorem map_leaf (token : Token) : (leaf token).map f = .leaf (f token) := rfl

@[simp]
theorem map_group (delimiter : Delimiter) (opening closing : Token) (trees : List Tree) :
    (group delimiter opening closing trees).map f =
      .group delimiter (f opening) (f closing) (mapAll f trees) := rfl

@[simp]
theorem mapAll_nil : mapAll f [] = [] := rfl

@[simp]
theorem mapAll_cons (tree : Tree) (trees : List Tree) :
    mapAll f (tree :: trees) = tree.map f :: mapAll f trees := rfl

/-- Lists of trees are replaced tree by tree. -/
theorem mapAll_eq_map (trees : List Tree) : mapAll f trees = trees.map (·.map f) := by
  induction trees with
  | nil => rfl
  | cons tree trees ih => rw [mapAll_cons, ih, List.map_cons]

/-- A group at the front was a group before. -/
theorem mapAll_eq_leaf_cons {token : Token} {rest trees : List Tree}
    (h : mapAll f trees = .leaf token :: rest) : ∃ token' trees', trees = .leaf token' :: trees' ∧
      f token' = token ∧ mapAll f trees' = rest := by
  cases trees with
  | nil => cases h
  | cons tree trees =>
    obtain ⟨ht, hr⟩ := List.cons.inj h
    cases tree with
    | leaf token' => exact ⟨token', trees, rfl, Tree.leaf.inj ht, hr⟩
    | group => cases ht

theorem mapAll_eq_group_cons {delimiter : Delimiter} {opening closing : Token}
    {inside rest trees : List Tree}
    (h : mapAll f trees = .group delimiter opening closing inside :: rest) :
    ∃ opening closing inside rest, trees = .group delimiter opening closing inside :: rest := by
  match trees with
  | .group _ opening closing inside :: rest =>
    obtain ⟨⟨rfl, -⟩, -⟩ := by simpa using h
    exact ⟨opening, closing, inside, rest, rfl⟩

@[simp]
theorem mapAll_append (a b : List Tree) : mapAll f (a ++ b) = mapAll f a ++ mapAll f b := by
  simp only [mapAll_eq_map, List.map_append]

/-- The pieces between separators are those that were there before. -/
theorem pieces_mapAll {f : Token → Token} {separator : Tree → Bool} {trees : List Tree}
    (h : ∀ tree ∈ trees, separator (tree.map f) = separator tree) :
    pieces separator (mapAll f trees) = (pieces separator trees).map (mapAll f) := by
  induction trees with
  | nil => rfl
  | cons tree trees ih =>
    rw [mapAll_cons, pieces, pieces, h tree List.mem_cons_self,
      ih fun t ht => h t (List.mem_cons_of_mem _ ht)]
    split
    · rfl
    · cases pieces separator trees <;> rfl

mutual

theorem flatten_map (tree : Tree) : (tree.map f).flatten = tree.flatten.map f :=
  match tree with
  | .leaf _ => rfl
  | .group _ _ _ trees => by simp [flatten, flattenAll_mapAll trees]

/-- The tokens of trees with their tokens replaced. -/
theorem flattenAll_mapAll (trees : List Tree) :
    flattenAll (mapAll f trees) = (flattenAll trees).map f :=
  match trees with
  | [] => rfl
  | tree :: trees => by simp [flattenAll, flatten_map tree, flattenAll_mapAll trees]

end

variable {f}

mutual

theorem map_eq_self (tree : Tree) (h : ∀ token ∈ tree.flatten, f token = token) : tree.map f = tree :=
  match tree with
  | .leaf token => by rw [map_leaf, h token (by simp [flatten])]
  | .group _ opening closing trees => by
    rw [map_group, h opening (by simp [flatten]), h closing (by simp [flatten]),
      mapAll_eq_self trees fun token ht => h token (by simp [flatten, ht])]

/-- Trees stay what they are if their tokens do. -/
theorem mapAll_eq_self (trees : List Tree) (h : ∀ token ∈ flattenAll trees, f token = token) :
    mapAll f trees = trees :=
  match trees with
  | [] => rfl
  | tree :: trees => by
    rw [mapAll_cons, map_eq_self tree fun token ht => h token (by simp [flattenAll, ht]),
      mapAll_eq_self trees fun token ht => h token (by simp [flattenAll, ht])]

end

mutual

theorem paired_map (hkind : ∀ token, (f token).kind = token.kind) {around : Option Delimiter}
    (tree : Tree) (h : tree.Paired around) : (tree.map f).Paired around :=
  match tree with
  | .leaf token => by simpa only [map_leaf, Paired, hkind] using h
  | .group delimiter opening closing trees => by
    obtain ⟨hopen, hclose, hinside⟩ := h
    exact ⟨by rwa [hkind], by rwa [hkind], pairedAll_mapAll hkind trees hinside⟩

theorem pairedAll_mapAll (hkind : ∀ token, (f token).kind = token.kind) {around : Option Delimiter}
    (trees : List Tree) (h : PairedAll around trees) : PairedAll around (mapAll f trees) :=
  match trees with
  | [] => trivial
  | tree :: trees => ⟨paired_map hkind tree h.1, pairedAll_mapAll hkind trees h.2⟩

end

/-- **Tokens of the same kinds pair up as before.** -/
theorem ofTokens_map (hkind : ∀ token, (f token).kind = token.kind) {tokens : List Token}
    {trees : List Tree} (h : ofTokens tokens = .ok trees) :
    ofTokens (tokens.map f) = .ok (mapAll f trees) := by
  rw [← ofTokens_flatten h, ← flattenAll_mapAll]
  exact ofTokens_flattenAll (pairedAll_mapAll hkind trees (pairedAll_of_ofTokens h))

end Tree

end DeferredLog
