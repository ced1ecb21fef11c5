import DeferredLog.Proofs.CallSite.Shape
import DeferredLog.Proofs.Tree.Alike
import DeferredLog.Proofs.Tree.Map

/-!
# Trees whose literals and member names change

A `Recast` puts another token of the same kind in the place of each token. The walk over the trees of a
program takes the same turns as before if names and punctuators keep their texts, and so it does if a
member name changes, as long as none of the places where it is looked at without regard to the dot before
it sees a difference. `Recasts` says so of a list of trees.

* `Recasts.head`: a tree that follows no dot looks the same as before.
* `Recasts.takeExpression_mapAll`, `Recasts.clauseEnd_mapAll` and others: each function that cuts trees
  cuts them at the same place.
* `Recasts.form_of`, `Recasts.inner_of`: statements, and what is inside an expression, are recognised as
  before.
-/

namespace DeferredLog

open DeferredLog.Tree

/-- What each token becomes: a token of the same kind, with a line break before it or not as before. -/
structure Recast where
  /-- What a token becomes. -/
  token : Token → Token
  /-- A token keeps its kind. -/
  kind : ∀ t, (token t).kind = t.kind
  /-- A token keeps the line break before it. -/
  newlineBefore : ∀ t, (token t).newlineBefore = t.newlineBefore

namespace Recast

/-- A token that keeps its text, if it is a name or a punctuator. -/
def Keeps (g : Recast) (token : Token) : Prop :=
  token.kind = .ident ∨ token.kind = .punct → (g.token token).text = token.text

theorem Keeps.alike {g : Recast} {token : Token} (h : g.Keeps token) :
    Alike (.leaf token) (.leaf (g.token token)) :=
  .leaf (g.kind _) h (g.newlineBefore _)

theorem alike_group (g : Recast) (delimiter : Delimiter) (opening closing : Token)
    (inside : List Tree) : Alike (.group delimiter opening closing inside)
      (Tree.map g.token (.group delimiter opening closing inside)) :=
  .group (g.newlineBefore _)

/-- A member name that may become another one before the given tree. -/
structure Renames (g : Recast) (token : Token) (next : Option Tree) : Prop where
  /-- It is a name. -/
  kind : token.kind = .ident
  /-- If one of the names is an operator elsewhere so is the other one, or no line ends behind it. -/
  operator : operatorWords.contains (g.token token).text = operatorWords.contains token.text ∨
    ∀ tree ∈ next, tree.newlineBefore = false
  /-- If one of the names ends the declarators of a loop so does the other one. -/
  loop : ["of", "in"].contains (g.token token).text = ["of", "in"].contains token.text
  /-- No arrow follows, for which it would be a parameter. -/
  arrow : ∀ tree ∈ next, tree.isPunct "=>" = false

end Recast

namespace Tree

/-- Trees that the walk cannot tell from those that they become, told whether a dot stands before them,
and whether there may be export clauses among them. -/
inductive Recasts (g : Recast) (exports : Bool) : Bool → List Tree → Prop
  | nil {dot} : Recasts g exports dot []
  | group {dot delimiter opening closing inside trees} : Recasts g exports false inside →
      Recasts g exports false trees →
      Recasts g exports dot (.group delimiter opening closing inside :: trees)
  | leaf {dot token trees} : g.Keeps token →
      (Tree.isIdent "export" (.leaf token) = true → exports = true) →
      Recasts g exports (Tree.isDot (.leaf token)) trees → Recasts g exports dot (.leaf token :: trees)
  | member {token trees} : g.Renames token trees.head? →
      (token.newlineBefore = true → exports = false) → Recasts g exports false trees →
      Recasts g exports true (.leaf token :: trees)

section Single

variable {g : Recast} {exports dot : Bool} {tree : Tree} {trees : List Tree} {token : Token}

theorem newlineBefore_map (g : Recast) (tree : Tree) :
    (tree.map g.token).newlineBefore = tree.newlineBefore := by
  cases tree <;> exact g.newlineBefore _

theorem isGroup_map (g : Recast) (tree : Tree) (delimiter : Delimiter) :
    Outline.isGroup delimiter (tree.map g.token) = Outline.isGroup delimiter tree := by
  cases tree with
  | leaf => rfl
  | group => simp only [Outline.isGroup, map_group, inside?]; split <;> rfl

theorem string?_isSome_map (g : Recast) (tree : Tree) :
    (tree.map g.token).string?.isSome = tree.string?.isSome := by
  cases tree with
  | leaf token => simp only [map_leaf, string?, g.kind]; split <;> rfl
  | group => rfl

/-- No expression ends behind a dot. -/
theorem endsExpression_of_isDot (h : tree.isDot = true) : tree.endsExpression = false := by
  cases tree with
  | group => simp [isDot, isPunct] at h
  | leaf token =>
    simp only [isDot, isPunct, Token.isPunct, Bool.or_eq_true, Bool.and_eq_true,
      decide_eq_true_eq] at h
    rcases h with ⟨hk, ht⟩ | ⟨hk, ht⟩ <;> simp [endsExpression, hk, ht]

theorem isDot_of_isPunct {text : String} (h : tree.isPunct text = true) (hd : text ≠ ".")
    (hq : text ≠ "?.") : tree.isDot = false := by
  simp [isDot, Tree.isPunct_ne h hd, Tree.isPunct_ne h hq]

theorem isDot_of_ident? {name : String} (h : tree.ident? = some name) : tree.isDot = false := by
  obtain ⟨token, rfl, hk, -⟩ := Tree.ident?_eq_some_iff.mp h
  simp [isDot, isPunct, Token.isPunct, hk]

theorem isDot_of_isIdent {name : String} (h : tree.isIdent name = true) : tree.isDot = false :=
  isDot_of_ident? (of_decide_eq_true h)

theorem isDot_eq_false_of_ident (h : token.kind = .ident) : isDot (.leaf token) = false := by
  simp [isDot, isPunct, Token.isPunct, h]

/-- Only expression statements start with a dot. -/
theorem isDot_of_form {form : Outline.Form} (hf : Outline.Form.of tree trees = form)
    (he : form ≠ .expression) : tree.isDot = false := by
  by_contra hd
  rw [Bool.not_eq_false, isDot, Bool.or_eq_true] at hd
  refine he (hf.symm.trans ?_)
  rcases hd with hd | hd <;>
  · obtain ⟨token, rfl, hp⟩ := Tree.isPunct_iff.mp hd
    simp only [Token.isPunct, Bool.and_eq_true, decide_eq_true_eq] at hp
    simp [Outline.Form.of, isPunct, Token.isPunct, Outline.isGroup, inside?, ident?, hp.1, hp.2]

/-- A dot announces nothing. -/
theorem inner_of_isDot {before : Outline.Before} (h : isDot (.leaf token) = true) :
    Outline.Inner.of before token trees = .plain := by
  simp only [isDot, isPunct, Token.isPunct, Bool.or_eq_true, Bool.and_eq_true,
    decide_eq_true_eq] at h
  rcases h with ⟨hk, ht⟩ | ⟨hk, ht⟩ <;> simp [Outline.Inner.of, Token.isPunct, hk, ht]

end Single

/-! ## Parts -/

namespace Recasts

variable {g : Recast} {exports dot : Bool} {tree : Tree} {trees : List Tree} {token : Token}

/-- A tree that follows no dot looks the same as before. -/
theorem head (h : Recasts g exports false (tree :: trees)) : Alike tree (tree.map g.token) := by
  cases h with
  | group => exact g.alike_group ..
  | leaf hk => exact hk.alike

/-- Every tree is the same punctuator as before. -/
theorem isPunct_head (h : Recasts g exports dot (tree :: trees)) (text : String) :
    (tree.map g.token).isPunct text = tree.isPunct text := by
  cases h with
  | group => rfl
  | leaf hk => exact hk.alike.isPunct_eq text
  | member hr => simp [isPunct, Token.isPunct, g.kind, hr.kind]

theorem isDot_head (h : Recasts g exports dot (tree :: trees)) :
    (tree.map g.token).isDot = tree.isDot := by
  rw [isDot, isDot, h.isPunct_head, h.isPunct_head]

theorem tail (h : Recasts g exports dot (tree :: trees)) : Recasts g exports tree.isDot trees := by
  cases h with
  | group _ h => exact h
  | leaf _ _ h => exact h
  | member hr _ h =>
    rw [isDot_eq_false_of_ident hr.kind]
    exact h

/-- What starts with no name may also stand behind no dot. -/
theorem of_ident? (h : Recasts g exports dot (tree :: trees)) (hnone : tree.ident? = none) :
    Recasts g exports false (tree :: trees) := by
  cases h with
  | group hi h => exact .group hi h
  | leaf hk he h => exact .leaf hk he h
  | member hr => simp [ident?, hr.kind] at hnone

/-- What starts on a new line may also stand behind no dot, if there may be export clauses. -/
theorem of_newline (h : Recasts g exports dot (tree :: trees)) (hn : tree.newlineBefore = true)
    (he : exports = true) : Recasts g exports false (tree :: trees) := by
  cases h with
  | group hi h => exact .group hi h
  | leaf hk he h => exact .leaf hk he h
  | member _ hm => cases he.symm.trans (hm hn)

/-- Behind a tree that is no dot nothing changes. -/
theorem tail_of_not_dot (h : Recasts g exports dot (tree :: trees)) (hd : tree.isDot = false) :
    Recasts g exports false trees := by
  rw [← hd]
  exact h.tail

/-- Behind the first tree of a statement nothing changes, unless that is an expression. -/
theorem tail_of_form (h : Recasts g exports false (tree :: trees)) {form : Outline.Form}
    (hf : Outline.Form.of tree trees = form) (he : form ≠ .expression) :
    Recasts g exports false trees :=
  h.tail_of_not_dot (isDot_of_form hf he)

theorem inside {delimiter : Delimiter} {opening closing : Token} {inside : List Tree}
    (h : Recasts g exports dot (.group delimiter opening closing inside :: trees)) :
    Recasts g exports false inside ∧ Recasts g exports false trees := by
  cases h with
  | group hi h => exact ⟨hi, h⟩

/-- The trees at the front. -/
theorem left {a b : List Tree} (h : Recasts g exports dot (a ++ b)) : Recasts g exports dot a := by
  induction a generalizing dot with
  | nil => exact .nil
  | cons tree a ih =>
    cases h with
    | group hi h => exact .group hi (ih h)
    | leaf hk he h => exact .leaf hk he (ih h)
    | member hr he h =>
      refine .member ⟨hr.kind, hr.operator.imp_right fun hn next hm => hn next ?_, hr.loop,
        fun next hm => hr.arrow next ?_⟩ he (ih h)
      all_goals
        cases a with
        | nil => cases hm
        | cons => exact hm

/-- The trees at the back. -/
theorem right {a b : List Tree} (h : Recasts g exports dot (a ++ b)) :
    ∃ dot', Recasts g exports dot' b := by
  induction a generalizing dot with
  | nil => exact ⟨dot, h⟩
  | cons tree a ih => exact ih h.tail

/-- Lists of trees begin with trees that look the same. -/
theorem ahead (h : Recasts g exports false trees) : Ahead 1 trees (mapAll g.token trees) := by
  cases trees with
  | nil => trivial
  | cons => exact .one h.head

theorem startsWith {p : Tree → Bool} (h : Recasts g exports false trees)
    (hp : ∀ tree tree', Alike tree tree' → p tree' = p tree) :
    Outline.startsWith p (mapAll g.token trees) = Outline.startsWith p trees :=
  startsWith_of_ahead hp h.ahead

/-! ## Cuts -/

/-- An expression is broken behind a tree as before. -/
theorem breaksBefore (h : Recasts g exports dot (tree :: trees)) : ∀ next ∈ trees.head?,
    Tree.breaksBefore (some (tree.map g.token)) (next.map g.token) =
      Tree.breaksBefore (some tree) next := by
  intro next hm
  obtain ⟨rest, rfl⟩ : ∃ rest, trees = next :: rest := by
    cases trees with
    | nil => cases hm
    | cons first rest => exact ⟨rest, by rw [Option.some.inj hm]⟩
  by_cases hd : tree.isDot = true
  · have hd' := h.isDot_head.trans hd
    simp [Tree.breaksBefore, endsExpression_of_isDot hd, endsExpression_of_isDot hd']
  · have hnext := (h.tail_of_not_dot (Bool.not_eq_true _ ▸ hd)).head
    cases h with
    | group => exact breaksBefore_of_alike rfl hnext
    | leaf hk => exact breaksBefore_of_alike (by simp [EndsAlike, hk.alike.endsExpression_eq]) hnext
    | @member token _ hr =>
      rcases hr.operator with he | hn
      · refine breaksBefore_of_alike ?_ hnext
        simp only [EndsAlike, Option.map_some, map_leaf, endsExpression, g.kind, hr.kind, he]
      · have hline := hn next rfl
        simp [Tree.breaksBefore, newlineBefore_map, hline]

/-- An expression ends where it did. -/
theorem takeExpression_mapAll (previous : Option Tree) (h : Recasts g exports dot trees)
    (hb : ∀ next ∈ trees.head?, Tree.breaksBefore (previous.map (·.map g.token)) (next.map g.token) =
      Tree.breaksBefore previous next) :
    takeExpression (previous.map (·.map g.token)) (mapAll g.token trees) =
      (mapAll g.token (takeExpression previous trees).1,
        mapAll g.token (takeExpression previous trees).2) := by
  induction trees generalizing previous dot with
  | nil => rfl
  | cons tree trees ih =>
    have ih := ih (some tree) h.tail h.breaksBefore
    rw [Option.map_some] at ih
    rw [mapAll_cons, takeExpression, takeExpression, h.isPunct_head, hb tree rfl]
    split
    · rfl
    · rw [ih]
      rfl

theorem takeExpression_left {previous : Option Tree} (h : Recasts g exports dot trees) :
    Recasts g exports dot (takeExpression previous trees).1 := by
  refine left (b := (takeExpression previous trees).2) ?_
  rwa [takeExpression_append]

/-- Behind an expression nothing changes: it does not end behind a dot. -/
theorem takeExpression_right (previous : Option Tree) (h : Recasts g exports dot trees)
    (hd : dot = true → ∀ p ∈ previous, p.endsExpression = false) :
    Recasts g exports false (skipSemicolon (takeExpression previous trees).2) := by
  induction trees generalizing previous dot with
  | nil => exact .nil
  | cons tree trees ih =>
    rw [takeExpression]
    split
    · rename_i hstop
      rw [skipSemicolon]
      split
      · rename_i hs
        exact h.tail_of_not_dot (isDot_of_isPunct hs (by decide) (by decide))
      · rename_i hs
        cases hdot : dot with
        | false =>
          subst hdot
          exact h
        | true =>
          cases previous with
          | none => simp [hs, Tree.breaksBefore] at hstop
          | some p => simp [hs, Tree.breaksBefore, hd hdot p rfl] at hstop
    · refine ih (some tree) h.tail fun ht p hp => ?_
      cases hp
      exact endsExpression_of_isDot ht

theorem skipSemicolon_mapAll (h : Recasts g exports dot trees) :
    skipSemicolon (mapAll g.token trees) = mapAll g.token (skipSemicolon trees) := by
  cases trees with
  | nil => rfl
  | cons tree trees =>
    rw [mapAll_cons, skipSemicolon, skipSemicolon, h.isPunct_head]
    split <;> rfl

theorem skipSemicolon_right (h : Recasts g exports false trees) :
    Recasts g exports false (skipSemicolon trees) := by
  cases trees with
  | nil => exact h
  | cons tree trees =>
    rw [skipSemicolon]
    split
    · rename_i hs
      exact h.tail_of_not_dot (isDot_of_isPunct hs (by decide) (by decide))
    · exact h

theorem behindWord?_mapAll (h : Recasts g exports false trees) (word : String) :
    behindWord? word (mapAll g.token trees) = (behindWord? word trees).map (mapAll g.token) := by
  cases trees with
  | nil => rfl
  | cons tree trees =>
    rw [mapAll_cons, behindWord?, behindWord?, h.head.isIdent_eq]
    split <;> rfl

theorem behindWord?_right (h : Recasts g exports false trees) {word : String} {rest : List Tree}
    (hw : behindWord? word trees = some rest) : Recasts g exports false rest := by
  obtain ⟨tree, rfl, hi⟩ := behindWord?_eq_some hw
  exact h.tail_of_not_dot (isDot_of_isIdent hi)

theorem skipWord_mapAll (h : Recasts g exports false trees) (word : String) :
    skipWord word (mapAll g.token trees) = mapAll g.token (skipWord word trees) := by
  rw [skipWord, skipWord, h.behindWord?_mapAll]
  cases behindWord? word trees <;> rfl

theorem skipWord_right (h : Recasts g exports false trees) (word : String) :
    Recasts g exports false (skipWord word trees) := by
  rw [skipWord]
  cases hw : behindWord? word trees with
  | none => exact h
  | some rest => exact h.behindWord?_right hw

theorem behindWords?_mapAll (h : Recasts g exports false trees) (first second : String) :
    behindWords? first second (mapAll g.token trees) =
      (behindWords? first second trees).map (mapAll g.token) := by
  rw [behindWords?, behindWords?, h.behindWord?_mapAll]
  cases hw : behindWord? first trees with
  | none => rfl
  | some rest => exact (h.behindWord?_right hw).behindWord?_mapAll second

theorem behindWords?_right (h : Recasts g exports false trees) {first second : String}
    {rest : List Tree} (hw : behindWords? first second trees = some rest) :
    Recasts g exports false rest := by
  obtain ⟨middle, hm, hr⟩ := Option.bind_eq_some_iff.mp hw
  exact (h.behindWord?_right hm).behindWord?_right hr

theorem endsArrowBody_head (h : Recasts g exports dot (tree :: trees)) :
    (tree.map g.token).endsArrowBody = tree.endsArrowBody := by
  rw [endsArrowBody, endsArrowBody, h.isPunct_head, h.isPunct_head]

theorem takeArrowBody_mapAll (h : Recasts g exports dot trees) :
    takeArrowBody (mapAll g.token trees) =
      (mapAll g.token (takeArrowBody trees).1, mapAll g.token (takeArrowBody trees).2) := by
  induction trees generalizing dot with
  | nil => rfl
  | cons tree trees ih =>
    have ih := ih h.tail
    simp only [takeArrowBody, Prod.mk.injEq, mapAll_cons, List.takeWhile_cons, List.dropWhile_cons,
      h.endsArrowBody_head] at ih ⊢
    split
    · exact ⟨congrArg _ ih.1, ih.2⟩
    · exact ⟨rfl, rfl⟩

theorem takeArrowBody_left (h : Recasts g exports dot trees) :
    Recasts g exports dot (takeArrowBody trees).1 := by
  refine left (b := (takeArrowBody trees).2) ?_
  rwa [takeArrowBody, List.takeWhile_append_dropWhile]

theorem takeArrowBody_right (h : Recasts g exports dot trees) :
    Recasts g exports false (takeArrowBody trees).2 := by
  rw [← List.takeWhile_append_dropWhile (p := (!endsArrowBody ·)) (l := trees)] at h
  obtain ⟨dot', h⟩ := h.right
  show Recasts g exports false (trees.dropWhile (!endsArrowBody ·))
  cases hd : trees.dropWhile (!endsArrowBody ·) with
  | nil => exact .nil
  | cons tree rest =>
    have hends := List.head?_dropWhile_not (!endsArrowBody ·) trees
    rw [hd] at h hends
    simp only [List.head?_cons, Bool.not_eq_false', endsArrowBody, Bool.or_eq_true] at hends
    rcases hends with hp | hp <;> exact h.of_ident? (Tree.ident?_of_isPunct hp)

theorem takeCase_mapAll (h : Recasts g exports dot trees) (pending : Nat) :
    takeCase pending (mapAll g.token trees) =
      (takeCase pending trees).map fun r => (mapAll g.token r.1, mapAll g.token r.2) := by
  induction trees generalizing dot pending with
  | nil => rfl
  | cons tree trees ih =>
    have ih := fun pending => ih h.tail pending
    rw [mapAll_cons, takeCase, takeCase, h.isPunct_head, h.isPunct_head]
    simp only [ih]
    split
    · cases takeCase (pending + 1) trees <;> rfl
    · split
      · split
        · rfl
        · cases takeCase (pending - 1) trees <;> rfl
      · cases takeCase pending trees <;> rfl

theorem takeCase_parts (h : Recasts g exports dot trees) {pending : Nat} {test rest : List Tree}
    (hc : takeCase pending trees = some (test, rest)) :
    Recasts g exports dot test ∧ Recasts g exports false rest := by
  obtain ⟨colon, rfl, hcolon, -⟩ := takeCase_cut hc
  refine ⟨h.left, ?_⟩
  obtain ⟨dot', h⟩ := h.right
  exact h.tail_of_not_dot (isDot_of_isPunct hcolon (by decide) (by decide))

theorem cutAtBrace_mapAll (trees : List Tree) (g : Recast) :
    cutAtBrace (mapAll g.token trees) = (cutAtBrace trees).map fun r =>
      (mapAll g.token r.1, mapAll g.token r.2.1, mapAll g.token r.2.2) := by
  fun_induction cutAtBrace trees with
  | case1 => rfl
  | case2 => rfl
  | case3 tree trees hne ih =>
    rw [mapAll_cons, cutAtBrace, ih]
    · cases cutAtBrace trees <;> rfl
    · intro opening closing inside he
      cases tree with
      | leaf => cases he
      | group delimiter opening' closing' inside' =>
        cases he
        exact hne _ _ _ rfl

theorem cutAtBrace_parts (h : Recasts g exports dot trees) {before inside rest : List Tree}
    (hc : cutAtBrace trees = some (before, inside, rest)) :
    Recasts g exports dot before ∧ Recasts g exports false inside ∧ Recasts g exports false rest := by
  obtain ⟨opening, closing, rfl, -⟩ := cutAtBrace_cut hc
  obtain ⟨dot', hr⟩ := h.right
  exact ⟨h.left, hr.inside⟩

theorem clauseEnd_mapAll (h : Recasts g exports dot trees) (required first : Bool) :
    clauseEnd required first (mapAll g.token trees) =
      (clauseEnd required first trees).map (mapAll g.token) := by
  induction trees generalizing dot first with
  | nil => cases required <;> rfl
  | cons tree trees ih =>
    rw [mapAll_cons, clauseEnd, clauseEnd, string?_isSome_map, h.isPunct_head, newlineBefore_map,
      ih h.tail]
    split
    · rfl
    · split
      · split <;> rfl
      · rfl

/-- Behind a clause nothing changes: it ends at a string, before a semicolon, or, where there may be
export clauses, before a new line. -/
theorem clauseEnd_right (h : Recasts g exports dot trees) {required first : Bool}
    (he : required = false → exports = true) {rest : List Tree}
    (hc : clauseEnd required first trees = some rest) : Recasts g exports false rest := by
  induction trees generalizing dot first with
  | nil =>
    rw [clauseEnd] at hc
    split at hc
    · cases hc
    · cases hc
      exact .nil
  | cons tree trees ih =>
    rw [clauseEnd] at hc
    split at hc
    · rename_i hs
      cases hc
      refine h.tail_of_not_dot ?_
      cases tree with
      | group => cases hs
      | leaf token =>
        have hk : token.kind = .string := by
          by_contra hk
          simp [string?, hk] at hs
        simp [isDot, isPunct, Token.isPunct, hk]
    · split at hc
      · rename_i hstop
        split at hc
        · cases hc
        · rename_i hr
          cases hc
          simp only [Bool.or_eq_true, Bool.and_eq_true] at hstop
          rcases hstop with hp | ⟨-, hn⟩
          · exact h.of_ident? (Tree.ident?_of_isPunct hp)
          · exact h.of_newline hn (he (Bool.not_eq_true _ ▸ hr))
      · exact ih h.tail hc

theorem skipAttributes_mapAll (h : Recasts g exports false trees) :
    skipAttributes (mapAll g.token trees) = mapAll g.token (skipAttributes trees) := by
  match trees with
  | [] | [_] | _ :: .leaf _ :: _ => rfl
  | word :: .group delimiter opening closing inside :: rest =>
    cases delimiter with
    | paren | bracket | template => rfl
    | brace =>
      simp only [mapAll_cons, map_group, skipAttributes, h.head.isIdent_eq]
      split <;> rfl

theorem skipAttributes_right (h : Recasts g exports false trees) :
    Recasts g exports false (skipAttributes trees) := by
  unfold skipAttributes
  split
  · split
    · exact h.tail.inside.2
    · exact h
  · exact h

/-! ## Statements and expressions -/

theorem functionName_mapAll (h : Recasts g exports false trees) :
    Outline.functionName (mapAll g.token trees) =
      ((Outline.functionName trees).1, mapAll g.token (Outline.functionName trees).2) := by
  cases trees with
  | nil => rfl
  | cons first rest =>
    by_cases hstar : first.isPunct "*" = true
    · have hrest := h.tail_of_not_dot (isDot_of_isPunct hstar (by decide) (by decide))
      cases rest with
      | nil => simp [Outline.functionName, h.isPunct_head, hstar]
      | cons second rest =>
        cases hi : second.ident? <;>
          simp [Outline.functionName, h.isPunct_head, hstar, hrest.head.ident?_eq, hi]
    · cases hi : first.ident? <;>
        simp [Outline.functionName, h.isPunct_head, hstar, h.head.ident?_eq, hi]

theorem functionName_right (h : Recasts g exports false trees) :
    Recasts g exports false (Outline.functionName trees).2 := by
  cases trees with
  | nil => exact h
  | cons first rest =>
    by_cases hstar : first.isPunct "*" = true
    · have hrest := h.tail_of_not_dot (isDot_of_isPunct hstar (by decide) (by decide))
      cases rest with
      | nil => simpa [Outline.functionName, hstar] using hrest
      | cons second rest =>
        cases hi : second.ident? with
        | none => simpa [Outline.functionName, hstar, hi] using hrest
        | some =>
          simpa [Outline.functionName, hstar, hi] using hrest.tail_of_not_dot (isDot_of_ident? hi)
    · cases hi : first.ident? with
      | none => simpa [Outline.functionName, hstar, hi] using h
      | some =>
        simpa [Outline.functionName, hstar, hi] using h.tail_of_not_dot (isDot_of_ident? hi)

theorem className_mapAll (h : Recasts g exports false trees) :
    Outline.className (mapAll g.token trees) =
      ((Outline.className trees).1, mapAll g.token (Outline.className trees).2) := by
  cases trees with
  | nil => rfl
  | cons tree rest =>
    simp only [Outline.className, mapAll_cons, h.head.ident?_eq]
    split
    · split <;> rfl
    · rfl

theorem className_right (h : Recasts g exports false trees) :
    Recasts g exports false (Outline.className trees).2 := by
  cases trees with
  | nil => exact h
  | cons tree rest =>
    cases hi : tree.ident? with
    | none => simpa only [Outline.className, hi] using h
    | some name =>
      simp only [Outline.className, hi]
      split
      · exact h
      · exact h.tail_of_not_dot (isDot_of_ident? hi)

theorem heritage_mapAll (h : Recasts g exports false trees) :
    Outline.heritage (mapAll g.token trees) = mapAll g.token (Outline.heritage trees) := by
  rw [Outline.heritage, Outline.heritage, h.behindWord?_mapAll]
  cases behindWord? "extends" trees <;> rfl

theorem heritage_right (h : Recasts g exports false trees) :
    Recasts g exports false (Outline.heritage trees) := by
  rw [Outline.heritage]
  cases hw : behindWord? "extends" trees with
  | none => exact .nil
  | some rest => exact h.behindWord?_right hw

/-- Statements are recognised as before. -/
theorem form_of (h : Recasts g exports false (tree :: trees)) :
    Outline.Form.of (tree.map g.token) (mapAll g.token trees) = Outline.Form.of tree trees := by
  by_cases hd : tree.isDot = true
  · have hnone : tree.ident? = none := by
      cases hi : tree.ident? with
      | none => rfl
      | some => simp [isDot_of_ident? hi] at hd
    simp only [Outline.Form.of, h.isPunct_head, isGroup_map, h.head.ident?_eq, hnone]
  · exact form_of_alike h.head (h.tail_of_not_dot (Bool.not_eq_true _ ▸ hd)).ahead

/-- What a leaf announces is recognised as before. -/
theorem inner_of {before before' : Outline.Before} (hb : before'.isDot = before.isDot)
    (h : Recasts g exports before.isDot (.leaf token :: trees)) :
    Outline.Inner.of before' (g.token token) (mapAll g.token trees) =
      Outline.Inner.of before token trees := by
  by_cases hd : isDot (.leaf token) = true
  · rw [inner_of_isDot hd, inner_of_isDot (h.isDot_head.trans hd)]
  · have hrest := h.tail_of_not_dot (Bool.not_eq_true _ ▸ hd)
    generalize hdot : before.isDot = dot at h
    cases h with
    | leaf hk => exact Outline.inner_of_alike hb hk.alike hrest.ahead
    | member hr => simp [Outline.Inner.of, g.kind, hr.kind, hb, hdot]

end Recasts

end Tree

end DeferredLog
