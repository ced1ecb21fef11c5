import DeferredLog.Proofs.Outline.Exact
import DeferredLog.Proofs.Outline.Items
import DeferredLog.Proofs.Program.Pattern
import DeferredLog.Proofs.Tree.Recast

/-!
# Outlines of recast trees

The readers of an outline take the same turns over trees and over what those become by a `Recast` that
`Recasts` allows: they fail for the same cause, or give outlines that differ only in the trees of their
statements. Each reader is treated once, below a bound on the weight of its trees under which all of them
are taken to agree; `Recast.below` is the induction over that bound.

* `Recasts.parameterNames_mapAll`, `Recasts.loopNames_mapAll`: patterns and loops bind the same names.
* `Recast.body_agrees`: the body of a program.
-/

namespace DeferredLog

open DeferredLog.Tree

/-! ## Names -/

namespace Tree

namespace Recasts

variable {g : Recast} {exports dot : Bool} {trees : List Tree}

section Separators

variable {separator : Tree → Bool}

/-- The trees of a list are cut at the same separators. -/
theorem cutAt_mapAll (h : Recasts g exports dot trees)
    (hs : ∀ {dot tree trees}, Recasts g exports dot (tree :: trees) →
      separator (tree.map g.token) = separator tree) :
    cutAt separator (mapAll g.token trees) =
      (mapAll g.token (cutAt separator trees).1,
        (cutAt separator trees).2.map (mapAll g.token)) := by
  induction trees generalizing dot with
  | nil => rfl
  | cons tree trees ih =>
    rw [mapAll_cons, cutAt, cutAt, hs h, ih h.tail]
    split <;> rfl

theorem cutAt_left (h : Recasts g exports dot trees) :
    Recasts g exports dot (cutAt separator trees).1 := by
  rw [← Outline.takeWhile_eq_cutAt]
  rw [← List.takeWhile_append_dropWhile (p := (!separator ·)) (l := trees)] at h
  exact h.left

theorem cutAt_right (h : Recasts g exports dot trees)
    (hs : ∀ tree, separator tree = true → tree.isDot = false) {rest : List Tree}
    (hc : (cutAt separator trees).2 = some rest) : Recasts g exports false rest := by
  induction trees generalizing dot with
  | nil => cases hc
  | cons tree trees ih =>
    rw [cutAt] at hc
    split at hc
    · rename_i hsep
      cases hc
      exact h.tail_of_not_dot (hs tree hsep)
    · exact ih h.tail hc

/-- The pieces between separators are those that were there before. -/
theorem pieces_recast (h : Recasts g exports dot trees)
    (hs : ∀ {dot tree trees}, Recasts g exports dot (tree :: trees) →
      separator (tree.map g.token) = separator tree) :
    pieces separator (mapAll g.token trees) = (pieces separator trees).map (mapAll g.token) := by
  refine pieces_mapAll fun tree ht => ?_
  obtain ⟨a, b, rfl⟩ := List.append_of_mem ht
  obtain ⟨_, hright⟩ := h.right
  exact hs hright

/-- Only the first piece can stand behind a dot. -/
theorem pieces_parts (h : Recasts g exports dot trees)
    (hs : ∀ tree, separator tree = true → tree.isDot = false) :
    ∃ rest, pieces separator trees = (cutAt separator trees).1 :: rest ∧
      ∀ piece ∈ rest, Recasts g exports false piece := by
  induction trees generalizing dot with
  | nil => exact ⟨[], rfl, nofun⟩
  | cons tree trees ih =>
    obtain ⟨rest, hp, hr⟩ := ih h.tail
    rw [pieces, cutAt, hp]
    by_cases hsep : separator tree = true
    · refine ⟨(cutAt separator trees).1 :: rest, by simp [hsep], ?_⟩
      rintro piece (_ | ⟨_, hm⟩)
      · exact (h.tail_of_not_dot (hs tree hsep)).cutAt_left
      · exact hr _ hm
    · exact ⟨rest, by simp [hsep], hr⟩

theorem of_mem_pieces (h : Recasts g exports false trees)
    (hs : ∀ tree, separator tree = true → tree.isDot = false) :
    ∀ piece ∈ pieces separator trees, Recasts g exports false piece := by
  obtain ⟨rest, hp, hr⟩ := h.pieces_parts hs
  rw [hp]
  rintro piece (_ | ⟨_, hm⟩)
  · exact h.cutAt_left
  · exact hr _ hm

end Separators

/-- The names of the pieces between commas are the same if those of each piece are. -/
theorem flatMap_betweenCommas {f : List Tree → List String} (h : Recasts g exports false trees)
    (hf : ∀ piece, weights piece ≤ weights trees → Recasts g exports false piece →
      f (mapAll g.token piece) = f piece) :
    (betweenCommas (mapAll g.token trees)).flatMap f = (betweenCommas trees).flatMap f := by
  rw [betweenCommas, betweenCommas, h.pieces_recast fun h => h.isPunct_head _, List.flatMap_map]
  refine List.flatMap_congr fun piece hm => hf piece (weights_pieces_le hm) ?_
  exact h.of_mem_pieces (fun _ hp => isDot_of_isPunct hp (by decide) (by decide)) piece hm

/-- A pattern binds the same names. -/
theorem boundNames_mapAll (h : Recasts g exports false trees) :
    boundNames (mapAll g.token trees) = boundNames trees := by
  induction hn : weights trees using Nat.strongRecOn generalizing trees with
  | _ n ih =>
  subst hn
  have ih : ∀ piece, weights piece < weights trees → Recasts g exports false piece →
      boundNames (mapAll g.token piece) = boundNames piece := fun piece hlt h => ih _ hlt h rfl
  have property : ∀ piece, weights piece < weights trees → Recasts g exports false piece →
      propertyNames (mapAll g.token piece) = propertyNames piece := by
    intro piece hlt h
    have hle := weights_cutAt_fst_le (isPunct ":") piece
    rw [propertyNames, propertyNames, h.cutAt_mapAll fun h => h.isPunct_head _]
    cases hv : (cutAt (isPunct ":") piece).2 with
    | none => exact ih _ (by omega) h.cutAt_left
    | some value =>
      have := weights_cutAt_snd_lt hv
      exact ih _ (by omega)
        (h.cutAt_right (fun _ hp => isDot_of_isPunct hp (by decide) (by decide)) hv)
  have hle := weights_cutAt_fst_le (isPunct "=") trees
  have hcut : Recasts g exports false (cutAt (isPunct "=") trees).1 := h.cutAt_left
  rw [boundNames_eq, boundNames_eq, h.cutAt_mapAll fun h => h.isPunct_head _]
  generalize (cutAt (isPunct "=") trees).1 = cut at hle hcut
  cases cut with
  | nil => rfl
  | cons first rest =>
    rw [weights_cons] at hle
    simp only [mapAll_cons, targetNames, hcut.isPunct_head]
    split
    · rename_i hdots
      have := weight_pos first
      exact ih _ (by omega)
        (hcut.tail_of_not_dot (isDot_of_isPunct hdots (by decide) (by decide)))
    · cases hcut with
      | @leaf _ token _ hk =>
        have hempty : (mapAll g.token rest).isEmpty = rest.isEmpty := by cases rest <;> rfl
        simp only [map_leaf, g.kind, hempty]
        by_cases hi : token.kind = .ident
        · rw [hk (.inl hi)]
        · simp [hi]
      | @group _ delimiter _ _ inside _ hi =>
        rw [weight_group] at hle
        cases delimiter with
        | paren | template => rfl
        | bracket =>
          exact hi.flatMap_betweenCommas fun piece hlt => ih piece (by omega)
        | brace =>
          exact hi.flatMap_betweenCommas fun piece hlt => property piece (by omega)

/-- Parameters bind the same names. -/
theorem parameterNames_mapAll (h : Recasts g exports false trees) :
    parameterNames (mapAll g.token trees) = parameterNames trees :=
  h.flatMap_betweenCommas fun _ _ h => h.boundNames_mapAll

theorem endsLoopNames_head {tree : Tree} (h : Recasts g exports dot (tree :: trees)) :
    Outline.endsLoopNames (tree.map g.token) = Outline.endsLoopNames tree := by
  cases h with
  | group => rfl
  | leaf hk => exact hk.alike.endsLoopNames_eq
  | @member token _ hr =>
    have hloop := hr.loop
    simp only [List.contains_cons, List.contains_nil, Bool.or_false, Bool.beq_eq_decide_eq] at hloop
    simpa [Outline.endsLoopNames, isPunct, Token.isPunct, isIdent, ident?, g.kind, hr.kind] using hloop

/-- The head of a loop binds the same names. -/
theorem loopNames_mapAll (h : Recasts g exports false trees) :
    Outline.loopNames (mapAll g.token trees) = Outline.loopNames trees := by
  cases trees with
  | nil => rfl
  | cons word rest =>
    have names : ∀ {name : String}, word.isIdent name = true →
        parameterNames ((mapAll g.token rest).takeWhile (!Outline.endsLoopNames ·)) =
          parameterNames (rest.takeWhile (!Outline.endsLoopNames ·)) := by
      intro name hw
      have hrest := h.tail_of_not_dot (isDot_of_isIdent hw)
      rw [Outline.takeWhile_eq_cutAt, Outline.takeWhile_eq_cutAt,
        hrest.cutAt_mapAll fun h => h.endsLoopNames_head]
      exact hrest.cutAt_left.parameterNames_mapAll
    simp only [Outline.loopNames, mapAll_cons, h.head.isIdent_eq]
    split
    · rename_i hw
      rw [names hw]
    · split
      · rename_i hw
        rcases Bool.or_eq_true _ _ ▸ hw with hw | hw <;> rw [names hw]
      · rfl

end Recasts

end Tree

/-! ## Readers -/

/-- Outcomes that agree: results in a relation, or faults with the same cause. -/
inductive Agree {α β : Type} (relation : α → β → Prop) : Except Fault α → Except Fault β → Prop
  | ok {a b} : relation a b → Agree relation (.ok a) (.ok b)
  | error {fault fault'} : fault'.cause = fault.cause → Agree relation (.error fault) (.error fault')

theorem Agree.bind {α α' β β' : Type} {before : α → α' → Prop} {after : β → β' → Prop}
    {x : Except Fault α} {x' : Except Fault α'} {f : α → Except Fault β} {f' : α' → Except Fault β'}
    (h : Agree before x x') (k : ∀ a a', before a a' → Agree after (f a) (f' a')) :
    Agree after (x >>= f) (x' >>= f') := by
  cases h with
  | ok h => exact k _ _ h
  | error h => exact .error h

theorem Agree.exists_ok {α β : Type} {relation : α → β → Prop} {x : Except Fault α} {y : Except Fault β}
    (h : Agree relation x y) {a : α} (hx : x = .ok a) : ∃ b, y = .ok b ∧ relation a b := by
  subst hx
  cases h with
  | ok hab => exact ⟨_, rfl, hab⟩

theorem Agree.exists_error {α β : Type} {relation : α → β → Prop} {x : Except Fault α}
    {y : Except Fault β} (h : Agree relation x y) {fault : Fault} (hx : x = .error fault) :
    ∃ fault', y = .error fault' ∧ fault'.cause = fault.cause := by
  subst hx
  cases h with
  | error hcause => exact ⟨_, rfl, hcause⟩

namespace Recast

/-- Outlines that differ only in the trees of their statements, which are the recast ones. -/
structure Outlines (g : Recast) (items items' : List Item) : Prop where
  /-- The names and scopes are the same. -/
  erase : Item.eraseAll items' = Item.eraseAll items
  /-- The statements have the recast trees. -/
  statements : Item.statementsAll items' = (Item.statementsAll items).map (mapAll g.token)

/-- Steps with such outlines that leave the same trees, but for being recast. -/
structure Steps (g : Recast) (exports : Bool) {m n : Nat} (step : Outline.Step m)
    (step' : Outline.Step n) : Prop where
  /-- What was read. -/
  items : g.Outlines step.items step'.items
  /-- What is left. -/
  rest : step'.rest = mapAll g.token step.rest
  /-- What is left is recast behind no dot. -/
  recasts : Recasts g exports false step.rest

variable {g : Recast} {exports : Bool}

namespace Outlines

theorem nil : g.Outlines [] [] := ⟨rfl, rfl⟩

theorem append {xs xs' ys ys' : List Item} (h : g.Outlines xs xs') (h' : g.Outlines ys ys') :
    g.Outlines (xs ++ ys) (xs' ++ ys') :=
  ⟨by simp [h.erase, h'.erase], by simp [h.statements, h'.statements]⟩

theorem scope (kind : ScopeKind) {xs xs' ys ys' : List Item} (h : g.Outlines xs xs')
    (h' : g.Outlines ys ys') : g.Outlines [.scope kind xs ys] [.scope kind xs' ys'] :=
  ⟨by simp [h.erase, h'.erase], by simp [h.statements, h'.statements]⟩

/-- Names, which are no statements. -/
theorem names {items : List Item} (h : Item.statementsAll items = []) : g.Outlines items items :=
  ⟨rfl, by simp [h]⟩

theorem binds (names : List String) : g.Outlines (names.map .bind) (names.map .bind) :=
  .names (Item.statementsAll_map_bind names)

theorem bindName (name : Option String) :
    g.Outlines (Outline.bindName name) (Outline.bindName name) :=
  .names (Outline.statementsAll_bindName name)

theorem statement (trees : List Tree) {items items' : List Item} (h : g.Outlines items items') :
    g.Outlines (.statement trees :: items) (.statement (mapAll g.token trees) :: items') :=
  ⟨by simp [h.erase], by simp [h.statements]⟩

end Outlines

/-- Every reader agrees on trees that weigh less than a bound. -/
structure Below (g : Recast) (exports : Bool) (bound : Nat) : Prop where
  body : ∀ {trees}, weights trees < bound → Recasts g exports false trees →
    Agree g.Outlines (Outline.body trees) (Outline.body (mapAll g.token trees))
  required : ∀ {trees} whole whole', weights trees < bound → Recasts g exports false trees →
    Agree (g.Steps exports) (Outline.required trees whole)
      (Outline.required (mapAll g.token trees) whole')
  cases : ∀ {trees}, weights trees < bound → Recasts g exports false trees →
    Agree g.Outlines (Outline.cases trees) (Outline.cases (mapAll g.token trees))
  expression : ∀ {before before' trees}, weights trees < bound → before'.isDot = before.isDot →
    (before'.arrowNames = before.arrowNames ∨ ∀ tree ∈ trees.head?, tree.isPunct "=>" = false) →
    Recasts g exports before.isDot trees →
    Agree g.Outlines (Outline.expression before trees)
      (Outline.expression before' (mapAll g.token trees))

section Readers

variable {bound : Nat} (ih : g.Below exports bound)

include ih

/-- An expression from its start. -/
theorem Below.start {trees : List Tree} (hn : weights trees < bound)
    (h : Recasts g exports false trees) :
    Agree g.Outlines (Outline.expression .nothing trees)
      (Outline.expression .nothing (mapAll g.token trees)) :=
  ih.expression hn rfl (.inl rfl) h

/-- An expression behind something that is no name. -/
theorem Below.go {trees : List Tree} (hn : weights trees < bound)
    (h : Recasts g exports false trees) :
    Agree g.Outlines (Outline.expression .other trees)
      (Outline.expression .other (mapAll g.token trees)) :=
  ih.expression hn rfl (.inl rfl) h

/-! ### Clauses and blocks -/

omit ih in
theorem moduleClause_agrees {required : Bool} {trees : List Tree} (whole whole' : List Tree)
    (he : required = true ∨ exports = true) (h : Recasts g exports false trees) :
    Agree (g.Steps exports) (Outline.moduleClause required trees whole)
      (Outline.moduleClause required (mapAll g.token trees) whole') := by
  unfold Outline.moduleClause
  split <;> rename_i hc
  · split <;> rename_i hc'
    · exact .error rfl
    · rw [h.clauseEnd_mapAll, hc] at hc'
      cases hc'
  · split <;> rename_i hc' <;> rw [h.clauseEnd_mapAll, hc] at hc' <;> cases hc'
    have hr := h.clauseEnd_right (fun hr => he.resolve_left (by simp [hr])) hc
    exact .ok ⟨.nil, by simp only [hr.skipAttributes_mapAll, hr.skipAttributes_right.skipSemicolon_mapAll],
      hr.skipAttributes_right.skipSemicolon_right⟩

theorem Below.blockHere {trees : List Tree} (part : Missing) (whole whole' : List Tree)
    (hn : weights trees ≤ bound) (h : Recasts g exports false trees) :
    Agree (g.Steps exports) (Outline.blockHere part trees whole)
      (Outline.blockHere part (mapAll g.token trees) whole') := by
  unfold Outline.blockHere
  match trees with
  | [] | .leaf _ :: _ | .group .paren _ _ _ :: _ | .group .bracket _ _ _ :: _
  | .group .template _ _ _ :: _ => exact .error rfl
  | .group .brace _ _ inside :: rest =>
    rw [weights_cons, weight_group] at hn
    exact (ih.body (by omega) h.inside.1).bind fun _ _ hi => .ok ⟨.scope .block .nil hi, rfl, h.inside.2⟩

theorem Below.catchClause {trees : List Tree} (whole whole' : List Tree)
    (hn : weights trees ≤ bound) (h : Recasts g exports false trees) :
    Agree (g.Steps exports) (Outline.catchClause trees whole)
      (Outline.catchClause (mapAll g.token trees) whole') := by
  unfold Outline.catchClause
  match trees with
  | [] | .leaf _ :: _ | .group .brace _ _ _ :: _ | .group .bracket _ _ _ :: _
  | .group .template _ _ _ :: _ =>
    exact (ih.blockHere .catchBlock whole whole' hn h).bind fun _ _ hs =>
      .ok ⟨.scope .block .nil hs.items, hs.rest, hs.recasts⟩
  | .group .paren _ _ parameters :: rest =>
    rw [weights_cons, weight_group] at hn
    refine (ih.blockHere .catchBlock whole whole' (by omega) h.inside.2).bind fun _ _ hs =>
      .ok ⟨?_, hs.rest, hs.recasts⟩
    dsimp only
    rw [h.inside.1.parameterNames_mapAll]
    exact .scope .block .nil (.append (.binds _) hs.items)

theorem Below.finallyClause {trees : List Tree} (whole whole' : List Tree)
    (hn : weights trees ≤ bound) (h : Recasts g exports false trees) :
    Agree (g.Steps exports) (Outline.finallyClause trees whole)
      (Outline.finallyClause (mapAll g.token trees) whole') := by
  unfold Outline.finallyClause
  split <;> rename_i hw
  · split <;> rename_i hw' <;> rw [h.behindWord?_mapAll, hw] at hw' <;> cases hw'
    have := weights_behindWord?_lt hw
    exact (ih.blockHere .finallyBlock whole whole' (by omega) (h.behindWord?_right hw)).bind
      fun _ _ hs => .ok ⟨hs.items, hs.rest, hs.recasts⟩
  · split <;> rename_i hw' <;> rw [h.behindWord?_mapAll, hw] at hw' <;> cases hw'
    exact .ok ⟨.nil, rfl, h⟩

theorem Below.switchBlock {trees : List Tree} (whole whole' : List Tree)
    (hn : weights trees ≤ bound) (h : Recasts g exports false trees) :
    Agree (g.Steps exports) (Outline.switchBlock trees whole)
      (Outline.switchBlock (mapAll g.token trees) whole') := by
  unfold Outline.switchBlock
  match trees with
  | [] | .leaf _ :: _ | .group .paren _ _ _ :: _ | .group .bracket _ _ _ :: _
  | .group .template _ _ _ :: _ => exact .error rfl
  | .group .brace _ _ inside :: rest =>
    rw [weights_cons, weight_group] at hn
    exact (ih.cases (by omega) h.inside.1).bind fun _ _ hi => .ok ⟨.scope .block .nil hi, rfl, h.inside.2⟩

/-! ### Functions, classes and exports -/

theorem Below.function {trees : List Tree} (declares : Bool) (whole whole' : List Tree)
    (hn : weights trees ≤ bound) (h : Recasts g exports false trees) :
    Agree (g.Steps exports) (Outline.function declares trees whole)
      (Outline.function declares (mapAll g.token trees) whole') := by
  unfold Outline.function
  have hr := h.functionName_right
  have hlight := Outline.weights_functionName_le trees
  generalize Outline.weights_functionName_le trees = hle
  generalize Outline.weights_functionName_le (mapAll g.token trees) = hle'
  revert hle hle'
  rw [h.functionName_mapAll]
  generalize Outline.functionName trees = named at hr hlight
  intro hle hle'
  obtain ⟨name, after⟩ := named
  match after with
  | [] | .leaf _ :: _ | .group .brace _ _ _ :: _ | .group .bracket _ _ _ :: _
  | .group .template _ _ _ :: _ | [.group .paren _ _ _] | .group .paren _ _ _ :: .leaf _ :: _
  | .group .paren _ _ _ :: .group .paren _ _ _ :: _
  | .group .paren _ _ _ :: .group .bracket _ _ _ :: _
  | .group .paren _ _ _ :: .group .template _ _ _ :: _ => exact .error rfl
  | .group .paren _ _ parameters :: .group .brace _ _ inside :: rest =>
    simp only [weights_cons, weight_group] at hlight
    obtain ⟨hparameters, hr⟩ := hr.inside
    obtain ⟨hinside, hrest⟩ := hr.inside
    refine (ih.start (by omega) hparameters).bind fun _ _ hd =>
      (ih.body (by omega) hinside).bind fun _ _ hi => .ok ⟨?_, rfl, hrest⟩
    dsimp only
    rw [hparameters.parameterNames_mapAll]
    refine .scope .function ?_ (((Outlines.append ?_ (.binds _)).append hd).append hi) <;>
      cases declares
    exacts [.nil, .bindName _, .bindName _, .nil]

theorem Below.classBody {trees : List Tree} (declares : Bool) (whole whole' : List Tree)
    (hn : weights trees ≤ bound) (h : Recasts g exports false trees) :
    Agree (g.Steps exports) (Outline.classBody declares trees whole)
      (Outline.classBody declares (mapAll g.token trees) whole') := by
  have hcut : cutAtBrace (Outline.className (mapAll g.token trees)).2 =
      (cutAtBrace (Outline.className trees).2).map fun r =>
        (mapAll g.token r.1, mapAll g.token r.2.1, mapAll g.token r.2.2) := by
    rw [h.className_mapAll, Recasts.cutAtBrace_mapAll]
  have hname := Outline.weights_className_le trees
  rw [Outline.classBody.eq_def declares (mapAll g.token trees)]
  split <;> rename_i hc'
  · unfold Outline.classBody
    split <;> rename_i hc
    · exact .error rfl
    · rw [hcut, hc] at hc'
      cases hc'
  · unfold Outline.classBody
    split
    · rename_i hc
      rw [hcut, hc] at hc'
      cases hc'
    · rename_i before inside rest hc
      rw [hcut, hc] at hc'
      cases hc'
      have := weights_cutAtBrace_lt hc
      have := Outline.weights_heritage_le before
      obtain ⟨hbefore, hinside, hrest⟩ := h.className_right.cutAtBrace_parts hc
      have hparent := ih.start (by omega) hbefore.heritage_right
      rw [← hbefore.heritage_mapAll] at hparent
      refine hparent.bind fun _ _ hp => (ih.start (by omega) hinside).bind fun _ _ hm =>
        .ok ⟨?_, rfl, hrest⟩
      dsimp only
      rw [h.className_mapAll]
      refine .scope .block (.append ?_ hp) (.append ?_ hm) <;> cases declares
      exacts [.nil, .bindName _, .bindName _, .nil]

/-- An expression up to its end, with a semicolon. -/
theorem Below.cut {trees : List Tree} (hn : weights trees < bound)
    (h : Recasts g exports false trees) :
    Agree g.Outlines (Outline.expression .nothing (takeExpression none trees).1)
        (Outline.expression .nothing (takeExpression none (mapAll g.token trees)).1) ∧
      skipSemicolon (takeExpression none (mapAll g.token trees)).2 =
        mapAll g.token (skipSemicolon (takeExpression none trees).2) ∧
      Recasts g exports false (skipSemicolon (takeExpression none trees).2) := by
  have htake := h.takeExpression_mapAll none fun _ _ => rfl
  rw [Option.map_none] at htake
  have hweight := weights_takeExpression none trees
  refine ⟨?_, ?_, h.takeExpression_right none nofun⟩
  · rw [htake]
    exact ih.start (by omega) h.takeExpression_left
  · rw [htake]
    rw [← takeExpression_append none trees] at h
    obtain ⟨dot', h⟩ := h.right
    exact h.skipSemicolon_mapAll

theorem Below.exportClause {trees : List Tree} (whole whole' : List Tree)
    (hn : weights trees < bound) (he : exports = true) (h : Recasts g exports false trees) :
    Agree (g.Steps exports) (Outline.exportClause trees whole)
      (Outline.exportClause (mapAll g.token trees) whole') := by
  unfold Outline.exportClause
  have hstar := h.startsWith (p := fun t => t.isPunct "*" || Outline.isGroup .brace t)
    fun _ _ ht => by rw [ht.isPunct_eq, ht.isGroup_eq]
  rw [hstar]
  split
  · exact moduleClause_agrees whole whole' (.inr he) h
  have hdefault := h.behindWord?_mapAll "default"
  split <;> rename_i hd <;> rw [hd] at hdefault
  · split <;> rename_i hd' <;> cases hdefault.symm.trans hd'
    exact (ih.required whole whole' hn h).bind fun _ _ hs => .ok ⟨hs.items, hs.rest, hs.recasts⟩
  rename_i value
  have hv := h.behindWord?_right hd
  have hlt := weights_behindWord?_lt hd
  have hfunction := hv.behindWord?_mapAll "function"
  have hasync := hv.behindWords?_mapAll "async" "function"
  have hclass := hv.behindWord?_mapAll "class"
  split <;> rename_i hf <;> rw [hf] at hfunction
  · split <;> rename_i hd' <;> cases hdefault.symm.trans hd'
    split <;> rename_i hf' <;> cases hfunction.symm.trans hf'
    have := weights_behindWord?_lt hf
    exact (ih.function true whole whole' (by omega) (hv.behindWord?_right hf)).bind
      fun _ _ hs => .ok ⟨hs.items, hs.rest, hs.recasts⟩
  split <;> rename_i ha <;> rw [ha] at hasync
  · split <;> rename_i hd' <;> cases hdefault.symm.trans hd'
    split <;> rename_i hf' <;> cases hfunction.symm.trans hf'
    split <;> rename_i ha' <;> cases hasync.symm.trans ha'
    have := weights_behindWords?_lt ha
    exact (ih.function true whole whole' (by omega) (hv.behindWords?_right ha)).bind
      fun _ _ hs => .ok ⟨hs.items, hs.rest, hs.recasts⟩
  split <;> rename_i hc <;> rw [hc] at hclass
  all_goals
    split <;> rename_i hd' <;> cases hdefault.symm.trans hd'
    split <;> rename_i hf' <;> cases hfunction.symm.trans hf'
    split <;> rename_i ha' <;> cases hasync.symm.trans ha'
    split <;> rename_i hc' <;> cases hclass.symm.trans hc'
  · have := weights_behindWord?_lt hc
    exact (ih.classBody true whole whole' (by omega) (hv.behindWord?_right hc)).bind
      fun _ _ hs => .ok ⟨hs.items, hs.rest, hs.recasts⟩
  · obtain ⟨hvalue, hrest, hright⟩ := ih.cut (by omega) hv
    exact hvalue.bind fun _ _ hi => .ok ⟨hi, hrest, hright⟩

/-! ### Expressions -/

theorem Below.arrow {before before' : Outline.Before} {token token' : Token} {trees : List Tree}
    (hn : weights trees < bound) (hnames : before'.arrowNames = before.arrowNames)
    (h : Recasts g exports false trees) :
    Agree (g.Steps exports) (Outline.arrow before token trees)
      (Outline.arrow before' token' (mapAll g.token trees)) := by
  unfold Outline.arrow
  rw [hnames]
  cases before.arrowNames with
  | none => exact .error rfl
  | some names =>
    have hfront : (takeArrowBody (mapAll g.token trees)).1 = mapAll g.token (takeArrowBody trees).1 := by
      rw [h.takeArrowBody_mapAll]
    have hback : (takeArrowBody (mapAll g.token trees)).2 = mapAll g.token (takeArrowBody trees).2 := by
      rw [h.takeArrowBody_mapAll]
    have hweight := weights_takeArrowBody trees
    have hvalue := ih.start (by omega) h.takeArrowBody_left
    have hright := h.takeArrowBody_right
    match trees with
    | [] => exact .error rfl
    | .group .brace _ _ inside :: rest =>
      simp only [weights_cons, weight_group] at hn
      exact (ih.body (by omega) h.inside.1).bind fun _ _ hi =>
        .ok ⟨.scope .function .nil (.append (.binds names) hi), rfl, h.inside.2⟩
    | .leaf _ :: _ | .group .paren _ _ _ :: _ | .group .bracket _ _ _ :: _
    | .group .template _ _ _ :: _ =>
      rw [← hfront] at hvalue
      exact hvalue.bind fun _ _ hi =>
        .ok ⟨.scope .function .nil (.append (.binds names) hi), hback, hright⟩

omit ih in
theorem isDot_before (tree : Tree) : (Outline.Before.of tree).isDot = tree.isDot := by
  cases tree with
  | leaf token =>
    simp only [Outline.Before.of]
    split
    · rename_i hd
      exact hd.symm
    · rename_i hd
      rw [Bool.not_eq_true] at hd
      rw [hd]
      split <;> rfl
  | group delimiter =>
    simp only [Outline.Before.of]
    split <;> rfl

omit ih in
/-- What stands before an arrow names the same parameters. -/
theorem arrowNames_before {dot : Bool} {tree : Tree} {rest : List Tree}
    (h : Recasts g exports dot (tree :: rest)) :
    (Outline.Before.of (tree.map g.token)).arrowNames = (Outline.Before.of tree).arrowNames ∨
      ∀ next ∈ rest.head?, next.isPunct "=>" = false := by
  cases h with
  | group hi =>
    refine .inl ?_
    simp only [map_group, Outline.Before.of]
    split
    · exact congrArg some hi.parameterNames_mapAll
    · rfl
  | @leaf _ token _ hk =>
    refine .inl ?_
    have hd : isDot (.leaf (g.token token)) = isDot (.leaf token) := hk.alike.isDot_eq
    simp only [map_leaf, Outline.Before.of, hd, g.kind]
    split
    · rfl
    · split
      · rename_i hi
        rw [hk (.inl hi)]
      · rfl
  | member hr => exact .inr hr.arrow

/-- The rest of an expression behind a tree. -/
theorem Below.behind {dot : Bool} {tree : Tree} {rest : List Tree} (hn : weights rest < bound)
    (h : Recasts g exports dot (tree :: rest)) :
    Agree g.Outlines (Outline.expression (.of tree) rest)
      (Outline.expression (.of (tree.map g.token)) (mapAll g.token rest)) := by
  refine ih.expression hn ?_ (arrowNames_before h) ?_
  · rw [isDot_before, isDot_before, h.isDot_head]
  · rw [isDot_before]
    exact h.tail

/-- What is nested in an expression. -/
theorem Below.nested {before before' : Outline.Before} {trees : List Tree}
    (hn : weights trees ≤ bound) (hb : before'.isDot = before.isDot)
    (hnames : before'.arrowNames = before.arrowNames ∨
      ∀ tree ∈ trees.head?, tree.isPunct "=>" = false)
    (h : Recasts g exports before.isDot trees) :
    Agree g.Outlines (Outline.expression before trees)
      (Outline.expression before' (mapAll g.token trees)) := by
  match trees with
  | [] =>
    unfold Outline.expression
    exact .ok .nil
  | .group delimiter a b inside :: rest =>
    by_cases hm : delimiter = .paren ∧ ∃ c d block after, rest = .group .brace c d block :: after
    · obtain ⟨rfl, c, d, block, after, rfl⟩ := hm
      simp only [weights_cons, weight_group] at hn
      unfold Outline.expression
      refine (ih.start (by omega) h.inside.1).bind fun _ _ hd =>
        (ih.body (by omega) h.inside.2.inside.1).bind fun _ _ hi =>
          (ih.go (by omega) h.inside.2.inside.2).bind fun _ _ hr => .ok ?_
      rw [h.inside.1.parameterNames_mapAll]
      exact Outlines.append (.scope .function .nil (((Outlines.binds _).append hd).append hi)) hr
    · have hlight : weights inside < bound ∧ weights rest < bound := by
        simp only [weights_cons, weight_group] at hn
        omega
      rw [mapAll_cons, map_group, Outline.expression, Outline.expression]
      · exact (ih.start hlight.1 h.inside.1).bind fun _ _ hi =>
          (ih.behind hlight.2 h).bind fun _ _ hr => .ok (hi.append hr)
      · intro c d block after hrest hd
        exact hm ⟨hd, mapAll_eq_group_cons g.token hrest⟩
      · rintro c d block after rfl rfl
        exact hm ⟨rfl, c, d, block, after, rfl⟩
  | .leaf token :: rest =>
    have hlight : weights rest < bound := by
      simp only [weights_cons, weight_leaf] at hn
      omega
    have hi := h.inner_of hb
    rw [mapAll_cons, map_leaf]
    unfold Outline.expression
    simp only [hi]
    have hrest : Outline.Inner.of before token rest ≠ .plain → Recasts g exports false rest :=
      fun hp => h.tail_of_not_dot (Bool.eq_false_iff.mpr fun hd => hp (inner_of_isDot hd))
    cases hinner : Outline.Inner.of before token rest <;> rw [hinner] at hrest
    case plain => exact ih.behind hlight h
    all_goals have hrest := hrest (by simp)
    case function =>
      refine (ih.function false _ _ (Nat.le_of_lt hlight) hrest).bind fun f f' hf => ?_
      have := f.lighter
      have hgo := ih.go (by omega) hf.recasts
      rw [← hf.rest] at hgo
      exact hgo.bind fun _ _ hr => .ok (hf.items.append hr)
    case classBody =>
      refine (ih.classBody false _ _ (Nat.le_of_lt hlight) hrest).bind fun c c' hc => ?_
      have := c.lighter
      have hgo := ih.go (by omega) hc.recasts
      rw [← hc.rest] at hgo
      exact hgo.bind fun _ _ hr => .ok (hc.items.append hr)
    case staticBlock =>
      obtain ⟨_, _, inside, after, rfl⟩ :=
        Outline.starts_brace (Outline.Inner.of_staticBlock hinner)
      simp only [weights_cons, weight_group] at hlight
      exact (ih.body (by omega) hrest.inside.1).bind fun _ _ hb =>
        (ih.go (by omega) hrest.inside.2).bind fun _ _ hr =>
          .ok (Outlines.append (.scope .function .nil hb) hr)
    case arrow =>
      have harrow : isPunct "=>" (.leaf token) = true := by
        unfold Outline.Inner.of at hinner
        split at hinner
        · (repeat' split at hinner) <;> cases hinner
        · split at hinner
          · assumption
          · cases hinner
      refine (ih.arrow hlight (hnames.resolve_right fun h => ?_) hrest).bind fun a a' ha => ?_
      · simp [harrow] at h
      have := a.lighter
      have hgo := ih.go (by omega) ha.recasts
      rw [← ha.rest] at hgo
      exact hgo.bind fun _ _ hr => .ok (ha.items.append hr)

/-! ### Statements -/

section Statements

variable {tree : Tree} {rest : List Tree}

theorem Below.ifElse (hn : weights (tree :: rest) ≤ bound)
    (h : Recasts g exports false (tree :: rest)) (hf : Outline.Form.of tree rest = .ifElse) :
    Agree (g.Steps exports) (Outline.statement tree rest)
      (Outline.statement (tree.map g.token) (mapAll g.token rest)) := by
  have hrest := h.tail_of_form hf (by simp)
  have hf' := h.form_of.trans hf
  unfold Outline.statement
  simp only [hf, hf']
  cases rest with
  | nil => exact .error rfl
  | cons first after =>
    cases first with
    | leaf => exact .error rfl
    | group delimiter _ _ head =>
      cases delimiter with
      | brace | bracket | template => exact .error rfl
      | paren =>
        have := weight_pos tree
        simp only [weights_cons, weight_group] at hn
        refine (ih.start (by omega) hrest.inside.1).bind fun test _ ht =>
          (ih.required _ _ (by omega) hrest.inside.2).bind fun yes yes' hyes => ?_
        have helse := hyes.recasts.behindWord?_mapAll "else"
        rw [← hyes.rest] at helse
        have := yes.lighter
        split <;> rename_i hw <;> rw [hw] at helse
        · split <;> rename_i hw' <;> cases helse.symm.trans hw'
          have := weights_behindWord?_lt hw
          exact (ih.required _ _ (by omega) (hyes.recasts.behindWord?_right hw)).bind fun no _ hno =>
            .ok ⟨(ht.append hyes.items).append hno.items, hno.rest, hno.recasts⟩
        · split <;> rename_i hw' <;> cases helse.symm.trans hw'
          exact .ok ⟨ht.append hyes.items, hyes.rest, hyes.recasts⟩

theorem Below.whileLoop (hn : weights (tree :: rest) ≤ bound)
    (h : Recasts g exports false (tree :: rest)) (hf : Outline.Form.of tree rest = .whileLoop) :
    Agree (g.Steps exports) (Outline.statement tree rest)
      (Outline.statement (tree.map g.token) (mapAll g.token rest)) := by
  have hrest := h.tail_of_form hf (by simp)
  have hf' := h.form_of.trans hf
  unfold Outline.statement
  simp only [hf, hf']
  cases rest with
  | nil => exact .error rfl
  | cons first after =>
    cases first with
    | leaf => exact .error rfl
    | group delimiter _ _ head =>
      cases delimiter with
      | brace | bracket | template => exact .error rfl
      | paren =>
        have := weight_pos tree
        simp only [weights_cons, weight_group] at hn
        exact (ih.start (by omega) hrest.inside.1).bind fun test _ ht =>
          (ih.required _ _ (by omega) hrest.inside.2).bind fun inner inner' hi =>
            .ok ⟨ht.append hi.items, hi.rest, hi.recasts⟩

theorem Below.doWhile (hn : weights (tree :: rest) ≤ bound)
    (h : Recasts g exports false (tree :: rest)) (hf : Outline.Form.of tree rest = .doWhile) :
    Agree (g.Steps exports) (Outline.statement tree rest)
      (Outline.statement (tree.map g.token) (mapAll g.token rest)) := by
  have hrest := h.tail_of_form hf (by simp)
  have hf' := h.form_of.trans hf
  unfold Outline.statement
  simp only [hf, hf']
  have := weight_pos tree
  rw [weights_cons] at hn
  refine (ih.required _ _ (by omega) hrest).bind fun inner inner' hi => ?_
  have hwhile := hi.recasts.behindWord?_mapAll "while"
  rw [← hi.rest] at hwhile
  have := inner.lighter
  split <;> rename_i hw <;> rw [hw] at hwhile
  · split <;> rename_i hw' <;> cases hwhile.symm.trans hw'
    exact .error rfl
  · have hlt := weights_behindWord?_lt hw
    simp only [weights_cons, weight_group] at hlt
    obtain ⟨hhead, hafter⟩ := (hi.recasts.behindWord?_right hw).inside
    split
    · rename_i hw'
      cases hwhile.symm.trans hw'
    · rename_i hw'
      cases hwhile.symm.trans hw'
      exact (ih.start (by omega) hhead).bind fun test _ ht =>
        .ok ⟨hi.items.append ht, hafter.skipSemicolon_mapAll, hafter.skipSemicolon_right⟩
    · rename_i hne hw'
      cases hwhile.symm.trans hw'
      exact absurd rfl (hne _ _ _ _)
  · rename_i here hne
    split
    · rename_i hw'
      cases hwhile.symm.trans hw'
    · rename_i hw'
      obtain ⟨_, _, _, _, rfl⟩ :=
        mapAll_eq_group_cons g.token (Option.some.inj (hwhile.symm.trans hw'))
      exact absurd rfl (hne _ _ _ _)
    · rename_i hw'
      cases hwhile.symm.trans hw'
      cases here with
      | nil => exact .error rfl
      | cons first => cases first <;> exact .error rfl

theorem Below.forLoop (hn : weights (tree :: rest) ≤ bound)
    (h : Recasts g exports false (tree :: rest)) (hf : Outline.Form.of tree rest = .forLoop) :
    Agree (g.Steps exports) (Outline.statement tree rest)
      (Outline.statement (tree.map g.token) (mapAll g.token rest)) := by
  have hrest := h.tail_of_form hf (by simp)
  have hf' := h.form_of.trans hf
  unfold Outline.statement
  simp only [hf, hf']
  have := weight_pos tree
  rw [weights_cons] at hn
  have hlight := weights_skipWord_le "await" rest
  have hskip := hrest.skipWord_right "await"
  generalize weights_skipWord_le "await" rest = hle
  generalize weights_skipWord_le "await" (mapAll g.token rest) = hle'
  revert hle hle'
  rw [hrest.skipWord_mapAll]
  generalize skipWord "await" rest = here at hlight hskip
  intro hle hle'
  cases here with
  | nil => exact .error rfl
  | cons first after =>
    cases first with
    | leaf => exact .error rfl
    | group delimiter _ _ head =>
      cases delimiter with
      | brace | bracket | template => exact .error rfl
      | paren =>
        simp only [weights_cons, weight_group] at hlight
        refine (ih.start (by omega) hskip.inside.1).bind fun test _ ht =>
          (ih.required _ _ (by omega) hskip.inside.2).bind fun inner inner' hi =>
            .ok ⟨?_, hi.rest, hi.recasts⟩
        dsimp only
        rw [hskip.inside.1.loopNames_mapAll]
        exact .scope .block .nil (((Outlines.names (Outline.statementsAll_loopNames head)).append ht).append hi.items)

theorem Below.tryCatch (hn : weights (tree :: rest) ≤ bound)
    (h : Recasts g exports false (tree :: rest)) (hf : Outline.Form.of tree rest = .tryCatch) :
    Agree (g.Steps exports) (Outline.statement tree rest)
      (Outline.statement (tree.map g.token) (mapAll g.token rest)) := by
  have hrest := h.tail_of_form hf (by simp)
  have hf' := h.form_of.trans hf
  unfold Outline.statement
  simp only [hf, hf']
  have := weight_pos tree
  rw [weights_cons] at hn
  refine (ih.blockHere .tryBlock _ _ (by omega) hrest).bind fun tried tried' htried => ?_
  have hcatch := htried.recasts.behindWord?_mapAll "catch"
  rw [← htried.rest] at hcatch
  have := tried.lighter
  split <;> rename_i hw <;> rw [hw] at hcatch
  · split <;> rename_i hw' <;> cases hcatch.symm.trans hw'
    have := weights_behindWord?_lt hw
    refine (ih.catchClause _ _ (by omega) (htried.recasts.behindWord?_right hw)).bind
      fun caught caught' hcaught => ?_
    have := caught.lighter
    have hlast := ih.finallyClause (tree :: rest) (tree.map g.token :: mapAll g.token rest) (by omega)
      hcaught.recasts
    rw [← hcaught.rest] at hlast
    exact hlast.bind fun last _ hl =>
      .ok ⟨(htried.items.append hcaught.items).append hl.items, hl.rest, hl.recasts⟩
  · split <;> rename_i hw' <;> cases hcatch.symm.trans hw'
    have hlast := ih.finallyClause (tree :: rest) (tree.map g.token :: mapAll g.token rest) (by omega)
      htried.recasts
    rw [← htried.rest] at hlast
    exact hlast.bind fun last _ hl => .ok ⟨htried.items.append hl.items, hl.rest, hl.recasts⟩

theorem Below.switchCases (hn : weights (tree :: rest) ≤ bound)
    (h : Recasts g exports false (tree :: rest)) (hf : Outline.Form.of tree rest = .switchCases) :
    Agree (g.Steps exports) (Outline.statement tree rest)
      (Outline.statement (tree.map g.token) (mapAll g.token rest)) := by
  have hrest := h.tail_of_form hf (by simp)
  have hf' := h.form_of.trans hf
  unfold Outline.statement
  simp only [hf, hf']
  cases rest with
  | nil => exact .error rfl
  | cons first after =>
    cases first with
    | leaf => exact .error rfl
    | group delimiter _ _ head =>
      cases delimiter with
      | brace | bracket | template => exact .error rfl
      | paren =>
        have := weight_pos tree
        simp only [weights_cons, weight_group] at hn
        exact (ih.start (by omega) hrest.inside.1).bind fun test _ ht =>
          (ih.switchBlock _ _ (by omega) hrest.inside.2).bind fun block block' hb =>
            .ok ⟨ht.append hb.items, hb.rest, hb.recasts⟩

/-- The statement that starts with a tree. -/
theorem Below.statement (hn : weights (tree :: rest) ≤ bound)
    (h : Recasts g exports false (tree :: rest)) :
    Agree (g.Steps exports) (Outline.statement tree rest)
      (Outline.statement (tree.map g.token) (mapAll g.token rest)) := by
  have hlight : weights rest < bound := by
    have := weight_pos tree
    rw [weights_cons] at hn
    omega
  have hf' := h.form_of
  cases hf : Outline.Form.of tree rest <;> rw [hf] at hf'
  case ifElse => exact ih.ifElse hn h hf
  case whileLoop => exact ih.whileLoop hn h hf
  case doWhile => exact ih.doWhile hn h hf
  case forLoop => exact ih.forLoop hn h hf
  case tryCatch => exact ih.tryCatch hn h hf
  case switchCases => exact ih.switchCases hn h hf
  case block =>
    unfold Outline.statement
    simp only [hf, hf']
    exact ih.blockHere .statement _ _ hn h
  case expression =>
    have htake := h.tail.takeExpression_mapAll (some tree) h.breaksBefore
    rw [Option.map_some] at htake
    have hfront : (takeExpression (some (tree.map g.token)) (mapAll g.token rest)).1 =
        mapAll g.token (takeExpression (some tree) rest).1 := by
      rw [htake]
    have hback : (takeExpression (some (tree.map g.token)) (mapAll g.token rest)).2 =
        mapAll g.token (takeExpression (some tree) rest).2 := by
      rw [htake]
    have hweight := weights_takeExpression (some tree) rest
    have hcut := takeExpression_append (some tree) rest
    have hright := h.tail.takeExpression_right (some tree) fun hd p hp => by
      cases hp
      exact endsExpression_of_isDot hd
    rw [← hcut, ← List.cons_append] at h
    obtain ⟨dot', hafter⟩ := h.right
    have hinner : Agree g.Outlines (Outline.expression .nothing (tree :: (takeExpression (some tree) rest).1))
        (Outline.expression .nothing (mapAll g.token (tree :: (takeExpression (some tree) rest).1))) :=
      ih.nested (by simp only [weights_cons] at hn ⊢; omega) rfl (.inl rfl) h.left
    rw [mapAll_cons, ← hfront] at hinner
    unfold Outline.statement
    simp only [hf, hf']
    refine hinner.bind fun _ _ hi => .ok ⟨?_, ?_, hright⟩
    · dsimp only
      rw [hfront]
      exact .statement _ hi
    · dsimp only
      rw [hback]
      exact hafter.skipSemicolon_mapAll
  all_goals
    have hrest := h.tail_of_form hf (by simp)
    unfold Outline.statement
    simp only [hf, hf']
  case empty => exact .ok ⟨.nil, rfl, hrest⟩
  case functionDeclaration =>
    exact (ih.function true _ _ (Nat.le_of_lt hlight) hrest).bind fun _ _ hs =>
      .ok ⟨hs.items, hs.rest, hs.recasts⟩
  case asyncFunction =>
    have hsecond := (Outline.form_rest hf).1 rfl
    cases rest with
    | nil => cases hsecond
    | cons second rest =>
      rw [weights_cons] at hlight
      have hfunction := hrest.tail_of_not_dot (isDot_of_isIdent (Bool.and_eq_true_iff.mp hsecond).1)
      exact (ih.function true _ _ (by omega) hfunction).bind fun _ _ hs =>
        .ok ⟨hs.items, hs.rest, hs.recasts⟩
  case classDeclaration =>
    exact (ih.classBody true _ _ (Nat.le_of_lt hlight) hrest).bind fun _ _ hs =>
      .ok ⟨hs.items, hs.rest, hs.recasts⟩
  case declaration hoisted =>
    obtain ⟨hvalue, hafter, hright⟩ := ih.cut hlight hrest
    refine hvalue.bind fun _ _ hi => .ok ⟨?_, hafter, hright⟩
    have hnames : parameterNames (takeExpression none (mapAll g.token rest)).1 =
        parameterNames (takeExpression none rest).1 := by
      have htake := hrest.takeExpression_mapAll none fun _ _ => rfl
      rw [Option.map_none] at htake
      rw [htake]
      exact hrest.takeExpression_left.parameterNames_mapAll
    dsimp only
    rw [hnames]
    refine .append (.names ?_) hi
    cases hoisted <;> simp
  case leave =>
    have hline := hrest.startsWith (p := (!·.newlineBefore)) fun _ _ ht => by rw [ht.newlineBefore_eq]
    rw [hline]
    split
    · obtain ⟨hvalue, hafter, hright⟩ := ih.cut hlight hrest
      exact hvalue.bind fun _ _ hi => .ok ⟨hi, hafter, hright⟩
    · exact .ok ⟨.nil, hrest.skipSemicolon_mapAll, hrest.skipSemicolon_right⟩
  case jump =>
    have hlabel := hrest.startsWith (p := fun t => !t.newlineBefore && Outline.isFreeName t)
      fun _ _ ht => by rw [ht.newlineBefore_eq, ht.isFreeName_eq]
    obtain ⟨label, hl⟩ : ∃ label, Outline.startsWith
        (fun t => !t.newlineBefore && Outline.isFreeName t) rest = label := ⟨_, rfl⟩
    rw [hl] at hlabel
    obtain ⟨kept, hkept, hkept', hright⟩ : ∃ kept, (if label then rest.tail else rest) = kept ∧
        (if label then (mapAll g.token rest).tail else mapAll g.token rest) = mapAll g.token kept ∧
        Recasts g exports false kept := by
      cases label with
      | false => exact ⟨rest, rfl, rfl, hrest⟩
      | true =>
        cases rest with
        | nil => cases hl
        | cons first rest =>
          refine ⟨rest, rfl, rfl, ?_⟩
          cases hi : first.ident? with
          | none => simp [Outline.startsWith, Outline.isFreeName, hi] at hl
          | some => exact hrest.tail_of_not_dot (isDot_of_ident? hi)
    refine .ok ⟨.nil, ?_, ?_⟩
    · dsimp only
      rw [hlabel, hl, hkept, hkept']
      exact hright.skipSemicolon_mapAll
    · dsimp only
      rw [hl, hkept]
      exact hright.skipSemicolon_right
  case debugger => exact .ok ⟨.nil, hrest.skipSemicolon_mapAll, hrest.skipSemicolon_right⟩
  case importClause =>
    exact (moduleClause_agrees _ _ (.inl rfl) hrest).bind fun _ _ hs =>
      .ok ⟨hs.items, hs.rest, hs.recasts⟩
  case exportClause =>
    have hexport := (Outline.form_rest hf).2.2 rfl
    have he : exports = true := by
      cases h with
      | group => cases hexport
      | leaf _ he => exact he hexport
    exact (ih.exportClause _ _ hlight he hrest).bind fun _ _ hs => .ok ⟨hs.items, hs.rest, hs.recasts⟩
  case labelled =>
    have hcolon := (Outline.form_rest hf).2.1 rfl
    cases rest with
    | nil => cases hcolon
    | cons colon rest =>
      rw [weights_cons] at hlight
      have hinner := hrest.tail_of_not_dot (isDot_of_isPunct hcolon (by decide) (by decide))
      exact (ih.required _ _ (by omega) hinner).bind fun _ _ hs =>
        .ok ⟨hs.items, hs.rest, hs.recasts⟩

end Statements

/-! ### Bodies -/

theorem Below.wholeBody {trees : List Tree} (hn : weights trees ≤ bound)
    (h : Recasts g exports false trees) :
    Agree g.Outlines (Outline.body trees) (Outline.body (mapAll g.token trees)) := by
  unfold Outline.body
  cases trees with
  | nil => exact .ok .nil
  | cons tree rest =>
    refine (ih.statement hn h).bind fun first first' hfirst => ?_
    have := first.lighter
    have hmore := ih.body (by omega) hfirst.recasts
    rw [← hfirst.rest] at hmore
    exact hmore.bind fun _ _ hi => .ok (hfirst.items.append hi)

theorem Below.wholeRequired {trees : List Tree} (whole whole' : List Tree)
    (hn : weights trees ≤ bound) (h : Recasts g exports false trees) :
    Agree (g.Steps exports) (Outline.required trees whole)
      (Outline.required (mapAll g.token trees) whole') := by
  unfold Outline.required
  cases trees with
  | nil => exact .error rfl
  | cons => exact ih.statement hn h

theorem Below.wholeCases {trees : List Tree} (hn : weights trees ≤ bound)
    (h : Recasts g exports false trees) :
    Agree g.Outlines (Outline.cases trees) (Outline.cases (mapAll g.token trees)) := by
  unfold Outline.cases
  cases trees with
  | nil => exact .ok .nil
  | cons tree rest =>
    have hlight : weights rest < bound := by
      have := weight_pos tree
      rw [weights_cons] at hn
      omega
    simp only [mapAll_cons, h.head.isIdent_eq]
    split
    · rename_i hcase
      have hrest := h.tail_of_not_dot (isDot_of_isIdent hcase)
      have htake := hrest.takeCase_mapAll 0
      split <;> rename_i ht <;> rw [ht] at htake
      · split <;> rename_i ht' <;> cases htake.symm.trans ht'
        exact .error rfl
      · split <;> rename_i ht' <;> cases htake.symm.trans ht'
        have := weights_takeCase_lt ht
        have hparts := hrest.takeCase_parts ht
        exact (ih.start (by omega) hparts.1).bind fun _ _ hi =>
          (ih.cases (by omega) hparts.2).bind fun _ _ hm => .ok (hi.append hm)
    · have hcolon : Outline.startsWith (isPunct ":") (mapAll g.token rest) =
          Outline.startsWith (isPunct ":") rest := by
        cases rest with
        | nil => rfl
        | cons => exact h.tail.isPunct_head ":"
      rw [hcolon]
      split
      · rename_i hdefault
        have hcolon := (Bool.and_eq_true_iff.mp hdefault).2
        cases rest with
        | nil => cases hcolon
        | cons colon rest =>
          rw [weights_cons] at hlight
          exact ih.cases (by rw [List.tail_cons]; omega)
            (h.tail.tail_of_not_dot (isDot_of_isPunct hcolon (by decide) (by decide)))
      · refine (ih.statement hn h).bind fun first first' hfirst => ?_
        have := first.lighter
        have hmore := ih.cases (by omega) hfirst.recasts
        rw [← hfirst.rest] at hmore
        exact hmore.bind fun _ _ hi => .ok (hfirst.items.append hi)

end Readers

/-- Every reader agrees on all trees. -/
theorem below (g : Recast) (exports : Bool) (bound : Nat) : g.Below exports bound := by
  induction bound with
  | zero =>
    exact ⟨fun h => absurd h (Nat.not_lt_zero _), fun _ _ h => absurd h (Nat.not_lt_zero _),
      fun h => absurd h (Nat.not_lt_zero _), fun h => absurd h (Nat.not_lt_zero _)⟩
  | succ bound ih =>
    exact ⟨fun h => ih.wholeBody (Nat.le_of_lt_succ h),
      fun whole whole' h => ih.wholeRequired whole whole' (Nat.le_of_lt_succ h),
      fun h => ih.wholeCases (Nat.le_of_lt_succ h), fun h => ih.nested (Nat.le_of_lt_succ h)⟩

/-- **The body of a program is read as before when its trees are recast**, up to the trees of its
statements, or not for the same cause. -/
theorem body_agrees (g : Recast) {trees : List Tree} (h : Recasts g exports false trees) :
    Agree g.Outlines (Outline.body trees) (Outline.body (mapAll g.token trees)) :=
  (below g exports _).wholeBody (Nat.le_refl _) h

end Recast

end DeferredLog
