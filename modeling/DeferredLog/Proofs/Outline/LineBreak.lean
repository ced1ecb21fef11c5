import DeferredLog.Proofs.Outline.Visits
import DeferredLog.Proofs.Program.Pattern
import DeferredLog.Proofs.Tree.LineBreak

/-!
# Outlines with a line break before a brace

The walk over trees with a line break before one brace is the walk over the trees, as long as the line break
cuts off nothing: no expression ends at it, no `return` loses its value by it, and no list of exported names ends
there (`Job.cutsAt`). What is read is the same but for the tokens.

* `Rule.breakBefore`: one step.
* `Reads.breakBefore`: all of them.
-/

namespace DeferredLog

open DeferredLog.Tree

namespace Tree

variable {offset size : Nat} {trees : List Tree}

/-! ## Names -/

theorem cutAt_breakBefore {separator : Tree → Bool}
    (hs : ∀ tree, separator (tree.breakBefore offset size) = separator tree) (trees : List Tree) :
    cutAt separator (breakBeforeAll offset size trees) =
      (breakBeforeAll offset size (cutAt separator trees).1,
        (cutAt separator trees).2.map (breakBeforeAll offset size)) := by
  induction trees with
  | nil => rfl
  | cons tree trees ih =>
    rw [breakBeforeAll_cons, cutAt, cutAt, hs, ih]
    split <;> rfl

/-- The names of the pieces between commas are the same if those of each piece are. -/
theorem flatMap_betweenCommas_breakBefore {f : List Tree → List String}
    (hf : ∀ piece, weights piece ≤ weights trees → f (breakBeforeAll offset size piece) = f piece) :
    (betweenCommas (breakBeforeAll offset size trees)).flatMap f = (betweenCommas trees).flatMap f := by
  rw [betweenCommas, betweenCommas, breakBeforeAll, pieces_mapAll fun tree _ => isPunct_breakBefore tree ",",
    List.flatMap_map]
  exact List.flatMap_congr fun piece hm => hf piece (weights_pieces_le hm)

/-- A pattern binds the same names. -/
@[simp]
theorem boundNames_breakBefore (trees : List Tree) :
    boundNames (breakBeforeAll offset size trees) = boundNames trees := by
  induction hn : weights trees using Nat.strongRecOn generalizing trees with
  | _ n ih =>
  subst hn
  have ih : ∀ piece, weights piece < weights trees →
      boundNames (breakBeforeAll offset size piece) = boundNames piece := fun piece hlt => ih _ hlt _ rfl
  have property : ∀ piece, weights piece < weights trees →
      propertyNames (breakBeforeAll offset size piece) = propertyNames piece := by
    intro piece hlt
    have hle := weights_cutAt_fst_le (isPunct ":") piece
    rw [propertyNames, propertyNames, cutAt_breakBefore fun tree => isPunct_breakBefore tree ":"]
    cases hv : (cutAt (isPunct ":") piece).2 with
    | none => exact ih _ (by omega)
    | some value =>
      have := weights_cutAt_snd_lt hv
      exact ih _ (by omega)
  have hle := weights_cutAt_fst_le (isPunct "=") trees
  rw [boundNames_eq, boundNames_eq, cutAt_breakBefore fun tree => isPunct_breakBefore tree "="]
  generalize (cutAt (isPunct "=") trees).1 = cut at hle
  cases cut with
  | nil => rfl
  | cons first rest =>
    have := weight_pos first
    rw [weights_cons] at hle
    simp only [breakBeforeAll_cons, targetNames, isPunct_breakBefore]
    split
    · exact ih _ (by omega)
    · cases first with
      | leaf token =>
        have hempty : (breakBeforeAll offset size rest).isEmpty = rest.isEmpty := by cases rest <;> rfl
        simp only [breakBefore_leaf, hempty]
        rfl
      | group delimiter _ _ inside =>
        rw [weight_group] at hle
        cases delimiter with
        | paren | template => rfl
        | bracket => exact flatMap_betweenCommas_breakBefore fun piece hlt => ih piece (by omega)
        | brace => exact flatMap_betweenCommas_breakBefore fun piece hlt => property piece (by omega)

/-- Parameters bind the same names. -/
@[simp]
theorem parameterNames_breakBefore (trees : List Tree) :
    parameterNames (breakBeforeAll offset size trees) = parameterNames trees :=
  flatMap_betweenCommas_breakBefore fun piece _ => boundNames_breakBefore piece

end Tree

namespace Outline

variable {offset size : Nat} {tree : Tree} {trees : List Tree}

/-- The head of a loop binds the same names. -/
@[simp]
theorem loopNames_breakBefore (trees : List Tree) :
    loopNames (breakBeforeAll offset size trees) = loopNames trees := by
  cases trees with
  | nil => rfl
  | cons word rest =>
    have names : parameterNames ((breakBeforeAll offset size rest).takeWhile (!endsLoopNames ·)) =
        parameterNames (rest.takeWhile (!endsLoopNames ·)) := by
      rw [takeWhile_eq_cutAt, takeWhile_eq_cutAt, cutAt_breakBefore endsLoopNames_breakBefore,
        parameterNames_breakBefore]
    simp only [loopNames, breakBeforeAll_cons, isIdent_breakBefore, names]

@[simp]
theorem functionName_breakBefore (trees : List Tree) :
    functionName (breakBeforeAll offset size trees) =
      ((functionName trees).1, breakBeforeAll offset size (functionName trees).2) := by
  cases trees with
  | nil => rfl
  | cons first rest =>
    by_cases hstar : first.isPunct "*" = true
    · cases rest with
      | nil => simp [functionName, hstar]
      | cons second rest => cases hi : second.ident? <;> simp [functionName, hstar, hi]
    · cases hi : first.ident? <;> simp [functionName, hstar, hi]

@[simp]
theorem className_breakBefore (trees : List Tree) :
    className (breakBeforeAll offset size trees) =
      ((className trees).1, breakBeforeAll offset size (className trees).2) := by
  cases trees with
  | nil => rfl
  | cons tree rest =>
    simp only [className, breakBeforeAll_cons, ident?_breakBefore]
    split
    · split <;> rfl
    · rfl

@[simp]
theorem heritage_breakBefore (trees : List Tree) :
    heritage (breakBeforeAll offset size trees) = breakBeforeAll offset size (heritage trees) := by
  rw [heritage, heritage, behindWord?_breakBefore]
  cases behindWord? "extends" trees <;> rfl

/-! ## Statements and expressions -/

/-- A word stands on the line of the tree before it if it did. -/
theorem word_on_line (tree : Tree) (word : String) :
    ((tree.breakBefore offset size).isIdent word && !(tree.breakBefore offset size).newlineBefore) =
      (tree.isIdent word && !tree.newlineBefore) := by
  rw [isIdent_breakBefore, newlineBefore_breakBefore]
  by_cases hw : tree.isIdent word = true
  · rw [opensAt_of_ident? (of_decide_eq_true hw), Bool.or_false]
  · rw [Bool.not_eq_true] at hw
    rw [hw, Bool.false_and, Bool.false_and]

/-- A label stands on the line of the tree before it if it did. -/
theorem label_on_line (tree : Tree) :
    (!(tree.breakBefore offset size).newlineBefore && isFreeName (tree.breakBefore offset size)) =
      (!tree.newlineBefore && isFreeName tree) := by
  rw [isFreeName_breakBefore, newlineBefore_breakBefore]
  cases hi : tree.ident? with
  | none => simp [isFreeName, hi]
  | some name => rw [opensAt_of_ident? hi, Bool.or_false]

/-- Statements are recognised as before. -/
@[simp]
theorem form_of_breakBefore (tree : Tree) (trees : List Tree) :
    Form.of (tree.breakBefore offset size) (breakBeforeAll offset size trees) = Form.of tree trees := by
  have starts := fun p hp => @startsWith_breakBefore offset size p hp trees
  have hword : ∀ word, Form.ofWord word (breakBeforeAll offset size trees) = Form.ofWord word trees := by
    intro word
    unfold Form.ofWord
    rw [starts _ fun t => by rw [isGroup_breakBefore, isPunct_breakBefore],
      starts _ fun t => word_on_line t "function",
      starts _ fun t => by rw [isFreeName_breakBefore, isGroup_breakBefore, isGroup_breakBefore],
      starts _ fun t => isPunct_breakBefore t ":"]
  unfold Form.of
  rw [isPunct_breakBefore, isGroup_breakBefore, ident?_breakBefore]
  simp only [hword]

/-- What stands before a place, with a line break before a brace. -/
def Before.breakBefore (offset size : Nat) : Before → Before
  | .nothing => .nothing
  | .dot => .dot
  | .name text => .name text
  | .parameters trees => .parameters (breakBeforeAll offset size trees)
  | .other => .other

@[simp]
theorem Before.isDot_breakBefore (before : Before) :
    (before.breakBefore offset size).isDot = before.isDot := by
  cases before <;> rfl

@[simp]
theorem Before.arrowNames_breakBefore (before : Before) :
    (before.breakBefore offset size).arrowNames = before.arrowNames := by
  cases before with
  | parameters trees => exact congrArg some (parameterNames_breakBefore trees)
  | nothing | dot | name | other => rfl

@[simp]
theorem Before.of_breakBefore (tree : Tree) :
    Before.of (tree.breakBefore offset size) = (Before.of tree).breakBefore offset size := by
  cases tree with
  | leaf token =>
    simp only [breakBefore_leaf, Before.of]
    split
    · rename_i h
      rw [if_pos (show Tree.isDot (.leaf token) = true from h)]
      rfl
    · rename_i h
      rw [if_neg (show ¬ Tree.isDot (.leaf token) = true from h)]
      split
      · rename_i hk
        rw [if_pos (show token.kind = .ident from hk)]
        rfl
      · rename_i hk
        rw [if_neg (show ¬ token.kind = .ident from hk)]
        rfl
  | group delimiter =>
    simp only [breakBefore_group, Before.of]
    split <;> rfl

/-- What a leaf announces is recognised as before. -/
@[simp]
theorem inner_of_breakBefore (before : Before) (token : Token) (trees : List Tree) :
    Inner.of (before.breakBefore offset size) (token.breakBefore offset size)
        (breakBeforeAll offset size trees) =
      Inner.of before token trees := by
  have starts := fun p hp => @startsWith_breakBefore offset size p hp trees
  have hpunct : (token.breakBefore offset size).isPunct "=>" = token.isPunct "=>" := rfl
  unfold Inner.of
  rw [starts (isPunct ":") fun t => isPunct_breakBefore t ":",
    starts (isGroup .paren) fun t => isGroup_breakBefore t .paren,
    starts (isGroup .brace) fun t => isGroup_breakBefore t .brace, Before.isDot_breakBefore, hpunct]
  rfl

end Outline

namespace Outline

/-! ## Jobs and rules -/

/-- A job with a line break of some size before the brace at an offset. -/
def Job.breakBefore (offset size : Nat) : Job → Job
  | .body trees => .body (breakBeforeAll offset size trees)
  | .statement trees => .statement (breakBeforeAll offset size trees)
  | .block trees => .block (breakBeforeAll offset size trees)
  | .handler trees => .handler (breakBeforeAll offset size trees)
  | .cleanup trees => .cleanup (breakBeforeAll offset size trees)
  | .switch trees => .switch (breakBeforeAll offset size trees)
  | .cases trees => .cases (breakBeforeAll offset size trees)
  | .function declares trees => .function declares (breakBeforeAll offset size trees)
  | .classBody declares trees => .classBody declares (breakBeforeAll offset size trees)
  | .exported trees => .exported (breakBeforeAll offset size trees)
  | .expression before trees =>
    .expression (before.breakBefore offset size) (breakBeforeAll offset size trees)
  | .arrow before trees => .arrow (before.breakBefore offset size) (breakBeforeAll offset size trees)

/-- Whether less is read for a job if a line break stands before the brace at an offset: an expression that
may end at a line break ends before the brace, a `return` has no value, or the clause of an export ends. -/
def Job.cutsAt (offset : Nat) : Job → Bool
  | .statement (tree :: rest) =>
    match Form.of tree rest with
    | .declaration _ => Tree.cutsAt offset none (takeExpression none rest).1
    | .leave =>
      startsWith (!·.newlineBefore) rest &&
        (startsWith (opensAt offset) rest || Tree.cutsAt offset none (takeExpression none rest).1)
    | .expression => Tree.cutsAt offset (some tree) (takeExpression (some tree) rest).1
    | _ => false
  | .exported trees =>
    if startsWith (fun t => t.isPunct "*" || isGroup .brace t) trees then clauseCutsAt offset true trees
    else
      match behindWord? "default" trees with
      | some value =>
        (behindWord? "function" value).isNone && (behindWords? "async" "function" value).isNone &&
          (behindWord? "class" value).isNone && Tree.cutsAt offset none (takeExpression none value).1
      | none => false
  | _ => false

/-- The job of a part, what it gives and what it leaves. -/
def Part.outcome (p : Part) : Job × List Item × List Tree :=
  (p.job, p.items, p.rest)

/-- A part with a line break of some size before the brace at an offset. -/
def Part.breakBefore (offset size : Nat) (p : Part) : Part where
  gap := p.gap.map (Token.breakBefore offset size)
  opens := p.opens
  inside := p.inside
  job := p.job.breakBefore offset size
  items := Item.mapAll (breakBeforeAll offset size) p.items
  rest := breakBeforeAll offset size p.rest

variable {offset size : Nat} {job : Job} {parts : List Part} {items : List Item} {rest : List Tree}

theorem behindWord?_breakBefore_none {word : String} {trees : List Tree}
    (h : behindWord? word trees = none) : behindWord? word (breakBeforeAll offset size trees) = none := by
  rw [behindWord?_breakBefore, h]
  rfl

/-- A list of exported names starts where one did. -/
theorem exportsNames_breakBefore (tree : Tree) :
    ((tree.breakBefore offset size).isPunct "*" || isGroup .brace (tree.breakBefore offset size)) =
      (tree.isPunct "*" || isGroup .brace tree) := by
  rw [isPunct_breakBefore, isGroup_breakBefore]

/-- The value of a `return` or `throw` starts on its line if it did and no line break is put there. -/
theorem leaves_breakBefore {trees : List Tree}
    (h : startsWith (!·.newlineBefore) trees = true → startsWith (opensAt offset) trees = false) :
    startsWith (!·.newlineBefore) (breakBeforeAll offset size trees) = startsWith (!·.newlineBefore) trees := by
  cases trees with
  | nil => rfl
  | cons tree trees =>
    simp only [startsWith, breakBeforeAll_cons, List.head?_cons, Option.map_some, Option.getD_some,
      newlineBefore_breakBefore] at h ⊢
    cases hn : tree.newlineBefore with
    | true => rfl
    | false => simp [h (by rw [hn]; rfl)]

/-- **A rule is the same rule with a line break before a brace**, if the line break cuts off nothing. -/
theorem Rule.breakBefore (h : Rule job parts items rest) (hj : job.cutsAt offset = false) :
    ∃ parts', Rule (job.breakBefore offset size) parts' (Item.mapAll (breakBeforeAll offset size) items)
        (breakBeforeAll offset size rest) ∧
      parts'.map Part.outcome = (parts.map (Part.breakBefore offset size)).map Part.outcome := by
  have form := @form_of_breakBefore offset size
  cases h <;> simp only [Job.breakBefore, breakBeforeAll_cons, breakBefore_group, breakBeforeAll_nil,
    breakBeforeAll_append, Item.mapAll_append, Item.mapAll_cons, Item.mapAll_nil, Item.map_scope,
    Item.map_statement, Item.mapAll_map_bind, Item.mapAll_map_names, Item.mapAll_loopNames,
    Item.mapAll_ite, Item.mapAll_bindName]
  case bodyNil => exact ⟨_, .bodyNil, rfl⟩
  case bodyCons => exact ⟨_, .bodyCons, rfl⟩
  case empty hf => exact ⟨_, .empty ((form _ _).trans hf), rfl⟩
  case block hf => exact ⟨_, .block ((form _ _).trans hf), rfl⟩
  case ifElse hf hw =>
    exact ⟨_, .ifElse ((form _ (_ :: _)).trans hf) ((isIdent_breakBefore _ _).trans hw), rfl⟩
  case ifOnly hf hw =>
    exact ⟨_, .ifOnly ((form _ (_ :: _)).trans hf) (behindWord?_breakBefore_none hw), rfl⟩
  case whileLoop hf => exact ⟨_, .whileLoop ((form _ (_ :: _)).trans hf), rfl⟩
  case doWhile hf hw =>
    rw [← skipSemicolon_breakBefore]
    exact ⟨_, .doWhile ((form _ _).trans hf) ((isIdent_breakBefore _ _).trans hw), rfl⟩
  case forLoop tree await a b head after test inner hf hs =>
    have hf' := (form tree _).trans hf
    have hs' := (skipWord_breakBefore "await" _).trans (congrArg (breakBeforeAll offset size) hs)
    rw [breakBeforeAll_append] at hf' hs'
    rw [← loopNames_breakBefore head]
    exact ⟨_, .forLoop hf' hs', rfl⟩
  case tryCatch hf hw =>
    exact ⟨_, .tryCatch ((form _ _).trans hf) ((isIdent_breakBefore _ _).trans hw), rfl⟩
  case tryOnly hf hw => exact ⟨_, .tryOnly ((form _ _).trans hf) (behindWord?_breakBefore_none hw), rfl⟩
  case switchCases hf => exact ⟨_, .switchCases ((form _ (_ :: _)).trans hf), rfl⟩
  case functionDeclaration hf => exact ⟨_, .functionDeclaration ((form _ _).trans hf), rfl⟩
  case asyncFunction hf => exact ⟨_, .asyncFunction ((form _ (_ :: _)).trans hf), rfl⟩
  case classDeclaration hf => exact ⟨_, .classDeclaration ((form _ _).trans hf), rfl⟩
  case declaration hoisted values hf =>
    simp only [Job.cutsAt, hf] at hj
    have he := @takeExpression_breakBefore _ size _ _ hj
    have hr := @Rule.declaration _ _ _ (Item.mapAll (breakBeforeAll offset size) values)
      ((form _ _).trans hf)
    rw [Option.map_none] at he
    rw [he, skipSemicolon_breakBefore, parameterNames_breakBefore] at hr
    exact ⟨_, hr, rfl⟩
  case leave value hf hn =>
    simp only [Job.cutsAt, hf, hn, Bool.true_and, Bool.or_eq_false_iff] at hj
    have he := @takeExpression_breakBefore _ size _ _ hj.2
    have hr := @Rule.leave _ _ (Item.mapAll (breakBeforeAll offset size) items)
      ((form _ _).trans hf)
      ((leaves_breakBefore fun _ => hj.1).trans hn)
    rw [Option.map_none] at he
    rw [he, skipSemicolon_breakBefore] at hr
    exact ⟨_, hr, rfl⟩
  case leaveBare hf hn =>
    rw [← skipSemicolon_breakBefore]
    exact ⟨_, .leaveBare ((form _ _).trans hf)
      ((leaves_breakBefore fun h => by rw [hn] at h; cases h).trans hn), rfl⟩
  case jump rest hf =>
    have hr := @Rule.jump _ _ ((form _ _).trans hf)
    rw [startsWith_breakBefore label_on_line] at hr
    have htail : ∀ skip : Bool, (if skip then (breakBeforeAll offset size rest).tail
        else breakBeforeAll offset size rest) = breakBeforeAll offset size (if skip then rest.tail else rest) := by
      intro skip
      cases skip <;> cases rest <;> rfl
    rw [htail, skipSemicolon_breakBefore] at hr
    exact ⟨_, hr, rfl⟩
  case debugger hf =>
    rw [← skipSemicolon_breakBefore]
    exact ⟨_, .debugger ((form _ _).trans hf), rfl⟩
  case importClause hf he =>
    rw [← skipSemicolon_breakBefore, ← skipAttributes_breakBefore]
    exact ⟨_, .importClause ((form _ _).trans hf) (by simp [clauseEnd_breakBefore, he]), rfl⟩
  case exportClause hf => exact ⟨_, .exportClause ((form _ _).trans hf), rfl⟩
  case labelled hf => exact ⟨_, .labelled ((form _ (_ :: _)).trans hf), rfl⟩
  case expressionStatement tree _ inner hf =>
    simp only [Job.cutsAt, hf] at hj
    have he := @takeExpression_breakBefore _ size _ _ hj
    have hr := @Rule.expressionStatement _ _ (Item.mapAll (breakBeforeAll offset size) inner)
      ((form _ _).trans hf)
    rw [Option.map_some] at he
    rw [he, skipSemicolon_breakBefore] at hr
    exact ⟨_, hr, rfl⟩
  case blockHere => exact ⟨_, .blockHere, rfl⟩
  case handlerNames parameters _ _ =>
    rw [← parameterNames_breakBefore parameters]
    exact ⟨_, .handlerNames, rfl⟩
  case handler => exact ⟨_, .handler, rfl⟩
  case cleanup hw => exact ⟨_, .cleanup ((isIdent_breakBefore _ _).trans hw), rfl⟩
  case cleanupNone hw => exact ⟨_, .cleanupNone (behindWord?_breakBefore_none hw), rfl⟩
  case switch => exact ⟨_, .switch, rfl⟩
  case casesNil => exact ⟨_, .casesNil, rfl⟩
  case casesTest hc ht hcolon =>
    have ht' := (@takeCase_breakBefore offset size 0 _).trans (congrArg _ ht)
    rw [breakBeforeAll_append, breakBeforeAll_cons] at ht'
    exact ⟨_, .casesTest ((isIdent_breakBefore _ _).trans hc) ht' ((isPunct_breakBefore _ _).trans hcolon), rfl⟩
  case casesDefault hc hd hcolon =>
    exact ⟨_, .casesDefault ((isIdent_breakBefore _ _).trans hc) ((isIdent_breakBefore _ _).trans hd)
      ((isPunct_breakBefore _ _).trans hcolon), rfl⟩
  case casesStatement hc hd =>
    exact ⟨_, .casesStatement ((isIdent_breakBefore _ _).trans hc)
      (by rwa [isIdent_breakBefore, startsWith_breakBefore fun t => isPunct_breakBefore t ":"]), rfl⟩
  case function declares front name a b parameters c d inside defaults inner hn =>
    have hn' := (@functionName_breakBefore offset size _).trans
      (congrArg (fun r => (r.1, breakBeforeAll offset size r.2)) hn)
    simp only [breakBeforeAll_append, breakBeforeAll_cons, breakBefore_group] at hn'
    have hr := @Rule.function declares _ _ _ _ _ _ _ _ _ (Item.mapAll (breakBeforeAll offset size) defaults)
      (Item.mapAll (breakBeforeAll offset size) inner) hn'
    rw [parameterNames_breakBefore] at hr
    exact ⟨_, hr, rfl⟩
  case classBody declares front lead before trail c d inside name parent members hcut hb hc =>
    have hb' := (@className_breakBefore offset size _).trans
      (congrArg (fun r : Option String × List Tree => (r.1, breakBeforeAll offset size r.2)) hb)
    have hc' := (@cutAtBrace_breakBefore offset size _).trans (congrArg _ hc)
    have hcut' := congrArg (breakBeforeAll offset size) hcut
    simp only [breakBeforeAll_append, breakBeforeAll_cons, breakBefore_group, ← heritage_breakBefore] at hb' hc' hcut'
    have hr := @Rule.classBody declares _ _ _ _ _ _ _ _ _ (Item.mapAll (breakBeforeAll offset size) parent)
      (Item.mapAll (breakBeforeAll offset size) members) hb' hc' hcut'
    rw [heritage_breakBefore] at hr
    exact ⟨_, hr, rfl⟩
  case exportNames hs he =>
    rw [Job.cutsAt, if_pos hs] at hj
    rw [← skipSemicolon_breakBefore, ← skipAttributes_breakBefore]
    have he' := (@clauseEnd_breakBefore offset size _ false true fun _ => hj).trans (congrArg _ he)
    exact ⟨_, .exportNames ((startsWith_breakBefore exportsNames_breakBefore _).trans hs) he', rfl⟩
  case exportStatement hs hd =>
    exact ⟨_, .exportStatement ((startsWith_breakBefore exportsNames_breakBefore _).trans hs)
      (behindWord?_breakBefore_none hd), rfl⟩
  case exportFunction hd hf =>
    exact ⟨_, .exportFunction ((isIdent_breakBefore _ _).trans hd) ((isIdent_breakBefore _ _).trans hf), rfl⟩
  case exportAsync hd ha hf =>
    exact ⟨_, .exportAsync ((isIdent_breakBefore _ _).trans hd) ((isIdent_breakBefore _ _).trans ha)
      ((isIdent_breakBefore _ _).trans hf), rfl⟩
  case exportClass hd hc =>
    exact ⟨_, .exportClass ((isIdent_breakBefore _ _).trans hd) ((isIdent_breakBefore _ _).trans hc), rfl⟩
  case exportValue word value hd hf ha hc =>
    simp only [Job.cutsAt, starts_no_clause hd, behindWord?_cons hd, hf, ha, hc, Option.isNone_none,
      Bool.true_and, Bool.false_eq_true, if_false] at hj
    have he := @takeExpression_breakBefore _ size _ _ hj
    have hr := @Rule.exportValue (word.breakBefore offset size) (breakBeforeAll offset size value)
      (Item.mapAll (breakBeforeAll offset size) items) ((isIdent_breakBefore _ _).trans hd)
      (behindWord?_breakBefore_none hf)
      ((behindWords?_breakBefore _ _ _).trans (congrArg _ ha)) (behindWord?_breakBefore_none hc)
    rw [Option.map_none] at he
    rw [he, skipSemicolon_breakBefore] at hr
    exact ⟨_, hr, rfl⟩
  case expressionNil => exact ⟨_, .expressionNil, rfl⟩
  case method parameters _ _ _ _ _ _ _ =>
    rw [← parameterNames_breakBefore parameters]
    exact ⟨_, .method, rfl⟩
  case group hm =>
    refine ⟨_, .group fun hp => (startsWith_breakBefore (fun t => isGroup_breakBefore t .brace) _).trans (hm hp), ?_⟩
    rw [← breakBefore_group, Before.of_breakBefore]
    rfl
  case functionInside hi => exact ⟨_, .functionInside ((inner_of_breakBefore _ _ _).trans hi), rfl⟩
  case classInside hi => exact ⟨_, .classInside ((inner_of_breakBefore _ _ _).trans hi), rfl⟩
  case staticBlock hi => exact ⟨_, .staticBlock ((inner_of_breakBefore _ _ (_ :: _)).trans hi), rfl⟩
  case arrowInside hi => exact ⟨_, .arrowInside ((inner_of_breakBefore _ _ _).trans hi), rfl⟩
  case plain hi =>
    refine ⟨_, .plain ((inner_of_breakBefore _ _ _).trans hi), ?_⟩
    rw [← breakBefore_leaf, Before.of_breakBefore]
    rfl
  case arrowBlock hn => exact ⟨_, .arrowBlock ((Before.arrowNames_breakBefore _).trans hn), rfl⟩
  case arrowValue tree rest inner hn hb =>
    have hr := @Rule.arrowValue _ _ (tree.breakBefore offset size) (breakBeforeAll offset size rest)
      (Item.mapAll (breakBeforeAll offset size) inner)
      ((@Before.arrowNames_breakBefore offset size _).trans hn) ((isGroup_breakBefore _ _).trans hb)
    rw [← breakBeforeAll_cons, takeArrowBody_breakBefore] at hr
    exact ⟨_, hr, rfl⟩

/-- A part of the rule with a line break before a brace is that of a part without. -/
theorem exists_part {parts' : List Part}
    (h : parts'.map Part.outcome = (parts.map (Part.breakBefore offset size)).map Part.outcome) {q : Part}
    (hq : q ∈ parts') : ∃ p ∈ parts, q.outcome = (p.breakBefore offset size).outcome := by
  have hmem : q.outcome ∈ (parts.map (Part.breakBefore offset size)).map Part.outcome :=
    h ▸ List.mem_map_of_mem hq
  obtain ⟨_, hp', hsame⟩ := List.mem_map.mp hmem
  obtain ⟨p, hp, rfl⟩ := List.mem_map.mp hp'
  exact ⟨p, hp, hsame.symm⟩

/-- Parts with a line break before a brace are read if each of them is. -/
theorem allRead_breakBefore {parts' : List Part}
    (h : parts'.map Part.outcome = (parts.map (Part.breakBefore offset size)).map Part.outcome)
    (hp : ∀ p ∈ parts, Reads (p.job.breakBefore offset size)
      (Item.mapAll (breakBeforeAll offset size) p.items) (breakBeforeAll offset size p.rest)) :
    AllRead parts' := by
  intro q hq
  obtain ⟨p, hmem, hsame⟩ := exists_part h hq
  simp only [Part.outcome, Part.breakBefore, Prod.mk.injEq] at hsame
  obtain ⟨hjob, hitems, hrest⟩ := hsame
  rw [hjob, hitems, hrest]
  exact hp p hmem

/-- **What is read is read with a line break before a brace**, if the line break cuts off nothing on the
way. -/
theorem Reads.breakBefore (h : Reads job items rest) : ∀ s : Spot, s.job = job →
    (∀ t, Visits s t → t.job.cutsAt offset = false) →
      Reads (job.breakBefore offset size) (Item.mapAll (breakBeforeAll offset size) items)
        (breakBeforeAll offset size rest) := by
  refine Reads.induct (motive := fun job items rest => ∀ s : Spot, s.job = job →
    (∀ t, Visits s t → t.job.cutsAt offset = false) → Reads (job.breakBefore offset size)
      (Item.mapAll (breakBeforeAll offset size) items) (breakBeforeAll offset size rest))
    (fun {job parts items rest} hrule hparts ih => ?_) h
  rintro s rfl hs
  obtain ⟨parts', hrule', hsame⟩ := @Rule.breakBefore offset size _ _ _ _ hrule (hs s .refl)
  refine hrule'.reads (allRead_breakBefore hsame fun p hp => ?_)
  obtain ⟨t, ht, hjob⟩ := exists_spot hp s.front s.scopes
  exact ih p hp t hjob fun u hu => hs u (.head ⟨parts, items, rest, hrule, hparts, ht⟩ hu)

end Outline

end DeferredLog
