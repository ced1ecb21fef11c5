import DeferredLog.Proofs.Core.Spelling
import DeferredLog.Proofs.Outline.Yields

/-!
# What binding patterns bind

A binding pattern can be a parameter, a declarator, in a statement or in the head of a loop, and what is
caught. Wherever it stands, the names that are bound for it are those that are found in it
(`introduces_of_parameterNames`), in the scope where they belong and in no other one. These are its own
names (`introduces_of_binds`), but not for all patterns of the language
(`not_forall_introduces_of_binds`).

* `Outline.Reads.binds_nothing`: the defaults and values of patterns bind nothing around them.
* `Program.Opens`, `Program.AddsNames`: which names an outline adds to the table of scopes, at whatever
  place of whatever program it is added.
* `Outline.Introduces`: the names that are bound for some trees, with one field for each place where
  binding patterns stand.
-/

namespace DeferredLog

open DeferredLog.Tree

namespace Outline

open Item

/-! ## Expressions -/

/-- Whether what is read is a part of an expression. -/
def Job.isInner : Job → Bool
  | .function declares _ | .classBody declares _ => !declares
  | .expression .. | .arrow .. => true
  | _ => false

@[simp]
theorem hoistsAll_bindName (name : Option String) : hoistsAll (bindName name) = [] := by
  cases name <;> rfl

/-- **An expression binds nothing around it.** What is nested in it binds in scopes of its own. -/
theorem Reads.binds_nothing {job : Job} {items : List Item} {rest : List Tree}
    (h : Reads job items rest) (hj : job.isInner = true) :
    bindsAll items = [] ∧ hoistsAll items = [] := by
  induction h with
  | @function declares =>
    cases declares with
    | false => exact ⟨rfl, rfl⟩
    | true => cases hj
  | @classBody declares _ _ _ _ _ _ _ _ _ ih₁ ih₂ =>
    cases declares with
    | false =>
      obtain ⟨hbinds, hhoists⟩ := ih₁ rfl
      obtain ⟨-, hhoists'⟩ := ih₂ rfl
      simp [bindsAll, binds, hoistsAll, hoists, hbinds, hhoists, hhoists']
    | true => cases hj
  | expressionNil => exact ⟨rfl, rfl⟩
  | method _ _ _ _ _ ih =>
    obtain ⟨hbinds, hhoists⟩ := ih rfl
    simp [bindsAll, binds, hoistsAll, hoists, hbinds, hhoists]
  | staticBlock _ _ _ _ ih =>
    obtain ⟨hbinds, hhoists⟩ := ih rfl
    simp [bindsAll, binds, hoistsAll, hoists, hbinds, hhoists]
  | group _ _ _ ih₁ ih₂ =>
    obtain ⟨hbinds, hhoists⟩ := ih₁ rfl
    obtain ⟨hbinds', hhoists'⟩ := ih₂ rfl
    simp [hbinds, hhoists, hbinds', hhoists']
  | functionInside _ _ _ ih₁ ih₂ | classInside _ _ _ ih₁ ih₂ | arrowInside _ _ _ ih₁ ih₂ =>
    obtain ⟨hbinds, hhoists⟩ := ih₁ rfl
    obtain ⟨hbinds', hhoists'⟩ := ih₂ rfl
    simp [hbinds, hhoists, hbinds', hhoists']
  | plain _ _ ih => exact ih rfl
  | arrowBlock | arrowValue => exact ⟨rfl, rfl⟩
  | _ => cases hj

end Outline

namespace Program

open Item

/-! ## What adding an outline does -/

/-- Adding some items anywhere in a program first opens a scope of a kind, in which just the given names
are bound. -/
def Opens (items : List Item) (kind : ScopeKind) (names : List String) : Prop :=
  ∀ (program : Program) (place : Place), place.scope < program.scopes.size →
    place.home < program.scopes.size → ∃ bound,
      (program.addAll place items).scopes[program.scopes.size]? = some ⟨kind, some place.scope, bound⟩ ∧
        ∀ name, name ∈ bound ↔ name ∈ names

/-- Adding some items anywhere in a program binds just the given names in the scope there and in the
nearest function or module, and none in the other scopes that are there. -/
def AddsNames (items : List Item) (here home : List String) : Prop :=
  ∀ (program : Program) (place : Place), place.scope < program.scopes.size →
    place.home < program.scopes.size → ∀ k scope, program.scopes[k]? = some scope → ∃ bound,
      (program.addAll place items).scopes[k]? = some { scope with names := bound } ∧
        ∀ name, name ∈ bound ↔ name ∈ scope.names ∨ (k = place.scope ∧ name ∈ here) ∨
          (k = place.home ∧ name ∈ home)

theorem Opens.congr {items : List Item} {kind : ScopeKind} {names names' : List String}
    (h : Opens items kind names) (hnames : ∀ name, name ∈ names ↔ name ∈ names') :
    Opens items kind names' := by
  intro program place hs hh
  obtain ⟨bound, hbound, hmem⟩ := h program place hs hh
  exact ⟨bound, hbound, fun name => (hmem name).trans (hnames name)⟩

/-- The names that items add are those that they bind and hoist. -/
theorem addsNames (items : List Item) : AddsNames items (bindsAll items) (hoistsAll items) :=
  fun program place hs hh => (adds_addAll program place items hs hh).scopes

/-- The names of the scope that a part of an outline opens. -/
theorem opens_scope (kind : ScopeKind) (outside inside more : List Item) :
    Opens (.scope kind outside inside :: more) kind
      (bindsAll inside ++ if kind = .block then [] else hoistsAll inside) := by
  intro program place hs hh
  have hsize := size_openScope program kind place.scope
  have houtside := adds_addAll (program.openScope kind place.scope) place outside (by omega) (by omega)
  have hle := houtside.size_le
  have hhome : (place.within kind program.scopes.size).home =
      if kind = .block then place.home else program.scopes.size := rfl
  have hinner : program.scopes.size <
      ((program.openScope kind place.scope).addAll place outside).scopes.size := by omega
  obtain ⟨hscope, hhome'⟩ := place.within_lt kind hh hinner
  have hinside := adds_addAll _ _ inside hscope hhome'
  have hle' := hinside.size_le
  have hmore := adds_addAll (program.add place (.scope kind outside inside)) place more
    (by show place.scope < (Program.addAll _ _ inside).scopes.size; omega)
    (by show place.home < (Program.addAll _ _ inside).scopes.size; omega)
  -- What stands before, inside and behind: only the second binds names in the new scope.
  obtain ⟨a, ha, hmem⟩ := houtside.scopes _ _ (getElem?_openScope_size program kind place.scope)
  obtain ⟨b, hb, hmem'⟩ := hinside.scopes _ _ ha
  obtain ⟨c, hc, hmem''⟩ := hmore.scopes _ _ hb
  refine ⟨c, hc, fun name => ?_⟩
  have hne : program.scopes.size ≠ place.scope := Nat.ne_of_gt hs
  have hne' : program.scopes.size ≠ place.home := Nat.ne_of_gt hh
  have hnew : (place.within kind program.scopes.size).scope = program.scopes.size := rfl
  rw [hmem'', hmem', hmem, hhome, hnew]
  by_cases hk : kind = .block <;> simp [hk, hne, hne']

end Program

namespace Outline

open Item Program
open DeferredLog.Core (Declarer)
open Pattern (Binds isBindable)

variable {trees : List Tree} {names : List String}

/-! ## Places of patterns -/

/-- Whether a tree in front of an arrow holds the parameters `trees`: in parentheses, or as a single name
without. -/
def Heads (trees : List Tree) (tree : Tree) : Prop :=
  (∃ a b, tree = .group .paren a b trees) ∨
    ∃ token, isBindable token = true ∧ trees = [.leaf token] ∧ tree = .leaf token

/-- Some names are those that are bound for the trees `trees`, which stand for patterns between commas,
wherever they can stand. -/
structure Introduces (trees : List Tree) (names : List String) : Prop where
  /-- Parameters of a function: in its scope, with the name that an expression has for itself and what the
  body declares. -/
  function : ∀ {declares front name a b c d inside rest whole step},
    functionName front = (name, .group .paren a b trees :: .group .brace c d inside :: rest) →
    Outline.function declares front whole = .ok step → ∃ inner, Outline.body inside = .ok inner ∧
      Opens step.items .function (names ++ ((if declares then [] else name.toList) ++
        (bindsAll inner ++ hoistsAll inner)))
  /-- Parameters of a method: in its scope, with what the body declares. -/
  method : ∀ {before a b c d inside rest items},
    Outline.expression before (.group .paren a b trees :: .group .brace c d inside :: rest) = .ok items →
    ∃ inner, Outline.body inside = .ok inner ∧
      Opens items .function (names ++ (bindsAll inner ++ hoistsAll inner))
  /-- Parameters of an arrow function with a block: in its scope, with what the block declares. -/
  arrowBlock : ∀ {tree token c d inside rest step}, Heads trees tree →
    Outline.arrow (.of tree) token (.group .brace c d inside :: rest) = .ok step →
    ∃ inner, Outline.body inside = .ok inner ∧
      Opens step.items .function (names ++ (bindsAll inner ++ hoistsAll inner))
  /-- Parameters of an arrow function with an expression: in its scope, which binds nothing else. -/
  arrowValue : ∀ {tree token first rest step}, Heads trees tree → isGroup .brace first = false →
    Outline.arrow (.of tree) token (first :: rest) = .ok step → Opens step.items .function names
  /-- What is caught: in a scope around that of the block, which binds nothing else. -/
  handler : ∀ {a b rest whole step}, catchClause (.group .paren a b trees :: rest) whole = .ok step →
    Opens step.items .block names
  /-- Declarators of a statement: in the scope around it, or the nearest function or module if the word is
  `var`, and nothing else there. -/
  declaration : ∀ {word : Declarer} {tree first more own plain rest step},
    tree.isIdent word.text = true → (takeExpression none rest).1 = trees →
    trees = first :: more → Binds .target [first] own plain → Outline.statement tree rest = .ok step →
    AddsNames step.items (if word = .varWord then [] else names) (if word = .varWord then names else [])
  /-- Declarators in the head of a loop, up to a semicolon or one of the words `of` and `in`: in the scope
  of the loop, with what its statement declares, or in the nearest function or module if the word is
  `var`. -/
  loop : ∀ {word : Declarer} {tree rest a b head behind more step}, tree.isIdent "for" = true →
    skipWord "await" rest = .group .paren a b (head :: behind) :: more →
    head.isIdent word.text = true → behind.takeWhile (!endsLoopNames ·) = trees →
    Outline.statement tree rest = .ok step → ∃ inner, required more (tree :: rest) = .ok inner ∧
      Opens step.items .block ((if word = .varWord then [] else names) ++ bindsAll inner.items) ∧
      AddsNames step.items [] ((if word = .varWord then names else []) ++ hoistsAll inner.items)

theorem arrowNames_of_heads {tree : Tree} (h : Heads trees tree) :
    (Before.of tree).arrowNames = some (parameterNames trees) := by
  obtain ⟨a, b, rfl⟩ | ⟨token, ht, rfl, rfl⟩ := h
  · rfl
  · have hnames : parameterNames [.leaf token] = [token.text] :=
      Core.parameterNames_one (Pattern.boundNames_leaf ht)
        (List.forall_mem_singleton.mpr (Pattern.isPunct_of_isBindable ht ","))
    have hkind : token.kind = .ident := by
      simp only [isBindable, Bool.and_eq_true, decide_eq_true_eq] at ht
      exact ht.1
    have hdot : (Tree.leaf token).isDot = false := by
      simp [Tree.isDot, Pattern.isPunct_of_isBindable ht]
    rw [hnames, Before.of, hdot, hkind]
    rfl

/-- A word that declares a variable starts a declaration if a pattern stands behind it. -/
theorem form_of_target {word : Declarer} {tree first : Tree} {own : List String} {plain : Bool}
    {rest : List Tree} (hw : tree.isIdent word.text = true) (h : Binds .target [first] own plain) :
    Form.of tree (first :: rest) = .declaration (word = .varWord) := by
  rw [Core.form_of_word hw]
  cases word with
  | constWord | varWord => rfl
  | letWord =>
    have hstart : (isFreeName first || isGroup .bracket first || isGroup .brace first) = true := by
      cases h with
      | name ht =>
        simp only [isBindable, Bool.and_eq_true, decide_eq_true_eq] at ht
        simp [isFreeName, ident?, ht]
      | array | object => simp [isGroup, inside?]
    simp only [Declarer.text, Form.ofWord, startsWith, List.head?_cons, Option.map_some,
      Option.getD_some, hstart]
    simp

variable {declares : Bool} {before : Before} {front inside rest after : List Tree} {a b c d : Token}
  {name : Option String} {items : List Item}

namespace Reads

/-- The parameters of a function are bound in its scope. -/
theorem opens_function (h : Reads (.function declares front) items after)
    (hname : functionName front =
      (name, .group .paren a b trees :: .group .brace c d inside :: rest)) :
    ∃ inner, Reads (.body inside) inner [] ∧
      Opens items .function (parameterNames trees ++ ((if declares then [] else name.toList) ++
        (bindsAll inner ++ hoistsAll inner))) := by
  cases h with
  | function hname' hdefaults hinner =>
    cases hname.symm.trans hname'
    obtain ⟨hbinds, hhoists⟩ := hdefaults.binds_nothing rfl
    refine ⟨_, hinner, (opens_scope _ _ _ _).congr fun x => ?_⟩
    cases declares
    · simp [bindName, hbinds, hhoists]
      tauto
    · simp [hbinds, hhoists]

/-- The parameters of a method are bound in its scope. -/
theorem opens_method (h : Reads (.expression before
      (.group .paren a b trees :: .group .brace c d inside :: rest)) items after) :
    ∃ inner, Reads (.body inside) inner [] ∧
      Opens items .function (parameterNames trees ++ (bindsAll inner ++ hoistsAll inner)) := by
  cases h with
  | method hdefaults hinner =>
    obtain ⟨hbinds, hhoists⟩ := hdefaults.binds_nothing rfl
    exact ⟨_, hinner, (opens_scope _ _ _ _).congr fun x => by simp [hbinds, hhoists]⟩
  | group hbrace => cases hbrace rfl

/-- The parameters of an arrow function are bound in its scope. -/
theorem opens_arrowBlock (h : Reads (.arrow before (.group .brace c d inside :: rest)) items after)
    (hnames : before.arrowNames = some names) :
    ∃ inner, Reads (.body inside) inner [] ∧
      Opens items .function (names ++ (bindsAll inner ++ hoistsAll inner)) := by
  cases h with
  | arrowBlock hnames' hinner =>
    obtain rfl := Option.some.inj (hnames.symm.trans hnames')
    exact ⟨_, hinner, (opens_scope _ _ _ _).congr fun x => by simp⟩
  | arrowValue _ hbrace => cases hbrace

/-- So are they if the body is an expression, which binds nothing else there. -/
theorem opens_arrowValue {first : Tree} (h : Reads (.arrow before (first :: rest)) items after)
    (hbrace : isGroup .brace first = false) (hnames : before.arrowNames = some names) :
    Opens items .function names := by
  cases h with
  | arrowBlock => cases hbrace
  | arrowValue hnames' _ hvalue =>
    obtain rfl := Option.some.inj (hnames.symm.trans hnames')
    obtain ⟨hbinds, hhoists⟩ := hvalue.binds_nothing rfl
    exact (opens_scope _ _ _ _).congr fun x => by simp [hbinds, hhoists]

/-- What is caught is bound in a scope around that of the block. -/
theorem opens_handler (h : Reads (.handler (.group .paren a b trees :: rest)) items after) :
    Opens items .block (parameterNames trees) := by
  cases h with
  | handlerNames hblock =>
    cases hblock with
    | blockHere => exact (opens_scope _ _ _ _).congr fun x => by simp [bindsAll, binds]
  | handler hblock => cases hblock

/-- Declarators are bound around the statement. -/
theorem adds_declaration {tree : Tree} {hoisted : Bool}
    (h : Reads (.statement (tree :: rest)) items after)
    (hform : Form.of tree rest = .declaration hoisted) :
    AddsNames items (if hoisted then [] else parameterNames (takeExpression none rest).1)
      (if hoisted then parameterNames (takeExpression none rest).1 else []) := by
  obtain ⟨values, hvalues, rfl, -⟩ := h.form hform
  obtain ⟨hbinds, hhoists⟩ := hvalues.binds_nothing rfl
  have hadds := addsNames ((parameterNames (takeExpression none rest).1).map
    (if hoisted then Item.hoist else Item.bind) ++ values)
  cases hoisted <;> simpa [hbinds, hhoists] using hadds

/-- Declarators in the head of a loop are bound in the scope of the loop, or around it. -/
theorem binds_loop {word : Declarer} {tree head : Tree} {behind more : List Tree}
    (h : Reads (.statement (tree :: rest)) items after) (hform : Form.of tree rest = .forLoop)
    (hparts : skipWord "await" rest = .group .paren a b (head :: behind) :: more)
    (hword : head.isIdent word.text = true)
    (hnames : parameterNames (behind.takeWhile (!endsLoopNames ·)) = names) :
    ∃ inner, Reads (.statement more) inner after ∧
      Opens items .block ((if word = .varWord then [] else names) ++ bindsAll inner) ∧
      AddsNames items [] ((if word = .varWord then names else []) ++ hoistsAll inner) := by
  obtain ⟨_, _, _, _, test, inner, hparts', htest, hinner, rfl⟩ := h.form hform
  cases hparts.symm.trans hparts'
  obtain ⟨hbinds, hhoists⟩ := htest.binds_nothing rfl
  obtain ⟨hbinds', hhoists'⟩ := Core.binds_items word names
  rw [Core.loopNames_of_word hword, hnames]
  refine ⟨inner, hinner, (opens_scope _ _ _ _).congr fun x => ?_, ?_⟩
  · simp [hbinds, hbinds']
  · have hadds := addsNames [.scope .block [] (names.map word.item ++ test ++ inner)]
    simpa [bindsAll, binds, hoistsAll, hoists, hhoists, hhoists'] using hadds

end Reads

theorem reads_of_statement {tree : Tree} {step} (h : Outline.statement tree rest = .ok step) :
    Reads (.statement (tree :: rest)) step.items step.rest :=
  Job.Gave.reads ⟨[], gave_statement ⟨step, h, rfl, rfl⟩ []⟩

/-- **What patterns between commas bind** is what is found in them, wherever they stand. -/
theorem introduces_of_parameterNames (hnames : parameterNames trees = names) :
    Introduces trees names where
  function {declares front _ _ _ _ _ _ _ whole step} hname hstep := by
    have hreads := @Job.Gave.reads (.function declares front) _ _ ⟨whole, step, hstep, rfl, rfl⟩
    obtain ⟨inner, hinner, hopens⟩ := hreads.opens_function hname
    exact ⟨inner, body_eq_ok_iff.mpr hinner, hnames ▸ hopens⟩
  method {before _ _ _ _ _ _ _} hitems := by
    have hreads := @Job.Gave.reads (.expression before _) _ _ ⟨hitems, rfl⟩
    obtain ⟨inner, hinner, hopens⟩ := hreads.opens_method
    exact ⟨inner, body_eq_ok_iff.mpr hinner, hnames ▸ hopens⟩
  arrowBlock {tree token _ _ _ _ step} hheads hstep := by
    have hreads := @Job.Gave.reads (.arrow (.of tree) _) _ _ ⟨token, step, hstep, rfl, rfl⟩
    obtain ⟨inner, hinner, hopens⟩ := hreads.opens_arrowBlock (arrowNames_of_heads hheads)
    exact ⟨inner, body_eq_ok_iff.mpr hinner, hnames ▸ hopens⟩
  arrowValue {tree token _ _ step} hheads hbrace hstep := by
    have hreads := @Job.Gave.reads (.arrow (.of tree) _) _ _ ⟨token, step, hstep, rfl, rfl⟩
    exact hnames ▸ hreads.opens_arrowValue hbrace (arrowNames_of_heads hheads)
  handler {_ _ _ whole step} hstep := by
    have hreads := @Job.Gave.reads (.handler _) _ _ ⟨whole, step, hstep, rfl, rfl⟩
    exact hnames ▸ hreads.opens_handler
  declaration {word tree first more _ _ rest step} hword htrees hfirst htarget hstep := by
    have hrest : rest = first :: (more ++ (takeExpression none rest).2) := by
      rw [← List.cons_append, ← hfirst, ← htrees, takeExpression_append]
    have hform : Form.of tree rest = .declaration (word = .varWord) :=
      hrest ▸ form_of_target hword htarget
    have hadds := (reads_of_statement hstep).adds_declaration hform
    rw [htrees, hnames] at hadds
    simpa using hadds
  loop {word tree rest _ _ head behind more step} hfor hparts hword htrees hstep := by
    have hform : Form.of tree rest = .forLoop := Core.form_of_word hfor rest
    obtain ⟨inner, hinner, hbinds⟩ :=
      (reads_of_statement hstep).binds_loop hform hparts hword (htrees ▸ hnames)
    obtain ⟨step', hstep', rfl, -⟩ := hinner.gives (tree :: rest)
    exact ⟨step', hstep', hbinds⟩

/-- A handler of which the parameters are some trees, with an empty block. -/
def handlerOf (trees : List Tree) : List Tree :=
  [.group .paren ⟨.openParen, "(", 0, false⟩ ⟨.closeParen, ")", 1, false⟩ trees,
    .group .brace ⟨.openBrace, "\x7b", 2, false⟩ ⟨.closeBrace, "\x7d", 3, false⟩ []]

theorem reads_handlerOf (trees : List Tree) : Reads (.handler (handlerOf trees))
    [.scope .block [] ((parameterNames trees).map .bind ++ [.scope .block [] []])] [] :=
  .handlerNames (.blockHere .bodyNil)

/-- There are no other names that are bound for the trees. -/
theorem Introduces.mem_iff (h : Introduces trees names) {x : String} :
    x ∈ names ↔ x ∈ parameterNames trees := by
  have hreads := reads_handlerOf trees
  obtain ⟨step, hstep, hitems, -⟩ := hreads.gives []
  obtain ⟨bound, hbound, hmem⟩ := h.handler hstep .empty .top (by decide) (by decide)
  obtain ⟨bound', hbound', hmem'⟩ := hreads.opens_handler .empty .top (by decide) (by decide)
  rw [hitems, hbound'] at hbound
  obtain rfl : bound' = bound := by simpa using hbound
  exact (hmem x).symm.trans (hmem' x)

/-! ## Binding patterns -/

/-- A name of one letter at an offset. -/
def letterAt (letter : String) (offset : Nat) : Tree :=
  .leaf ⟨.ident, letter, offset, false⟩

/-- A sign at an offset. -/
def signAt (text : String) (offset : Nat) : Tree :=
  .leaf ⟨.punct, text, offset, false⟩

/-- The trees of `function () {a.d()}` from an offset on. -/
def functionAt (offset : Nat) : List Tree :=
  [letterAt "function" offset,
    .group .paren ⟨.openParen, "(", offset + 9, false⟩ ⟨.closeParen, ")", offset + 10, false⟩ [],
    .group .brace ⟨.openBrace, "\x7b", offset + 12, false⟩ ⟨.closeBrace, "\x7d", offset + 18, false⟩
      [letterAt "a" (offset + 13), signAt "." (offset + 14), letterAt "d" (offset + 15),
        .group .paren ⟨.openParen, "(", offset + 16, false⟩ ⟨.closeParen, ")", offset + 17, false⟩ []]]

/-- An object pattern with the properties that stand behind its brace. -/
def objectPattern (properties : List Tree) (offset : Nat) : List Tree :=
  [.group .brace ⟨.openBrace, "\x7b", 0, false⟩ ⟨.closeBrace, "\x7d", offset, false⟩ properties]

/-- The pattern `[b = c, , ...d]` from an offset on. -/
def arrayPattern (offset : Nat) : Tree :=
  .group .bracket ⟨.openBracket, "[", offset, false⟩ ⟨.closeBracket, "]", offset + 14, false⟩
    [letterAt "b" (offset + 1), signAt "=" (offset + 3), letterAt "c" (offset + 5),
      signAt "," (offset + 6), signAt "," (offset + 8), signAt "..." (offset + 10),
      letterAt "d" (offset + 13)]

/-- The properties of `{a, e: [b = c, , ...d], f: g = a ? b : c, ...h}`. -/
def nestedProperties : List Tree :=
  [letterAt "a" 1, signAt "," 2, letterAt "e" 4, signAt ":" 5, arrayPattern 7, signAt "," 22,
    letterAt "f" 24, signAt ":" 25, letterAt "g" 27, signAt "=" 29, letterAt "a" 31, signAt "?" 33,
    letterAt "b" 35, signAt ":" 37, letterAt "c" 39, signAt "," 40, signAt "..." 42, letterAt "h" 45]

theorem binds_letterAt {letter : String} (h : isReserved letter = false) (offset : Nat) :
    Binds .target [letterAt letter offset] [letter] true :=
  .name (by simp [isBindable, h])

theorem binds_nested : Binds (.many .slot) (objectPattern nestedProperties 46)
    ["a", "b", "d", "g", "h"] true := by
  have hname := fun letter h => @binds_letterAt letter h
  have hb : Binds .element ([letterAt "b" 8] ++ signAt "=" 10 :: [letterAt "c" 12]) ["b"] true :=
    .default (hname "b" (by decide) 8) rfl (by decide)
  have hd : Binds .slot [signAt "..." 17, letterAt "d" 20] ["d"] true :=
    .restSlot rfl (hname "d" (by decide) 20)
  have harray : Binds .element [arrayPattern 7] ["b", "d"] true :=
    .bare (.array (.more rfl (.slot hb) rfl (.more rfl .hole rfl (.last rfl hd))))
  have hg : Binds .element ([letterAt "g" 27] ++ signAt "=" 29 :: [letterAt "a" 31, signAt "?" 33,
      letterAt "b" 35, signAt ":" 37, letterAt "c" 39]) ["g"] true :=
    .default (hname "g" (by decide) 27) rfl (by decide)
  have hh : Binds .property [signAt "..." 42, letterAt "h" 45] ["h"] true :=
    .restProperty rfl (by decide)
  have ha : Binds .property [letterAt "a" 1] ["a"] true := .shorthand (by decide)
  have he : Binds .property [letterAt "e" 4, signAt ":" 5, arrayPattern 7] ["b", "d"] true :=
    .keyed rfl rfl harray
  have hf : Binds .property ([letterAt "f" 24, signAt ":" 25, letterAt "g" 27, signAt "=" 29,
      letterAt "a" 31, signAt "?" 33, letterAt "b" 35, signAt ":" 37, letterAt "c" 39]) ["g"] true :=
    .keyed rfl rfl hg
  have hproperties : Binds (.many .property) nestedProperties ["a", "b", "d", "g", "h"] true :=
    .more rfl ha rfl (.more rfl he rfl (.more rfl hf rfl (.last rfl hh)))
  exact .last rfl (.slot (.bare (.object hproperties)))

/-- **Binding patterns bind their names**, all of them and no others, as parameters, declarators and what
is caught, if no property that is a name alone has a default with a colon in it. -/
theorem introduces_of_binds (h : Binds (.many .slot) trees names true) : Introduces trees names :=
  introduces_of_parameterNames (h.read rfl)

/-- The pattern `{a, e: [b = c, , ...d], f: g = a ? b : c, ...h}`, as what is caught. -/
theorem introduces_of_binds_nested : Introduces (objectPattern nestedProperties 46)
      ["a", "b", "d", "g", "h"] ∧
    ∃ step, catchClause (handlerOf (objectPattern nestedProperties 46)) [] = .ok step ∧
      Opens step.items .block ["a", "b", "d", "g", "h"] := by
  have hintroduces := introduces_of_binds binds_nested
  obtain ⟨step, hstep, -⟩ := (reads_handlerOf (objectPattern nestedProperties 46)).gives []
  exact ⟨hintroduces, step, hstep, hintroduces.handler hstep⟩

/-- The properties of `{a = b ? c : d}`. -/
def conditionalProperties : List Tree :=
  [letterAt "a" 1, signAt "=" 3, letterAt "b" 5, signAt "?" 7, letterAt "c" 9, signAt ":" 11,
    letterAt "d" 13]

/-- **Not every binding pattern binds its names.** In `{a = b ? c : d}` it is `d` that is bound and not `a`:
the property is cut at its colon before its default is. -/
theorem not_forall_introduces_of_binds : ¬ ∀ (trees : List Tree) (names : List String) (plain : Bool),
    Binds (.many .slot) trees names plain → Introduces trees names := by
  intro hall
  have hproperty : Binds .property conditionalProperties ["a"] false :=
    .shorthandDefault rfl rfl (by decide)
  have hbinds : Binds (.many .slot) (objectPattern conditionalProperties 14) ["a"] false :=
    .last rfl (.slot (.bare (.object (.last rfl hproperty))))
  have hfound : parameterNames (objectPattern conditionalProperties 14) = ["d"] := by decide +kernel
  have ha := (hall _ _ _ hbinds).mem_iff.mp (List.mem_singleton_self "a")
  rw [hfound] at ha
  exact absurd ha (by decide)

end Outline

end DeferredLog
