import DeferredLog.Proofs.Core.Spelling
import DeferredLog.Proofs.Outline.Yields

/-!
# Reading the core language

What the trees of a program of the core language are read as: its outline, with the trees of its call
statements. They are read at all exactly if each function that a variable is declared to be opens its
body on the line of its parameters.

* `Core.Spells.yields`: what each part of a program yields.
-/

namespace DeferredLog

open DeferredLog.Tree

namespace Core

open Outline

variable {x : String} {tree : Tree} {before : Before} {s : Bool} {trees rest : List Tree}
  {i more : List Item}

/-! ## What parts yield -/

/-- Whether what is behind a value ends it. -/
def Follows : List Tree → Prop
  | [] => True
  | tree :: _ => tree.isPunct "," = true

/-- The outline of a part. -/
def Part.outline : Part → List Item
  | .value e => e.outline
  | .arguments es => argumentOutline es
  | .statement s => s.outline
  | .body b => outlineAll b

/-- What a part that is written as some trees yields wherever it stands. -/
def Part.Yields (trees : List Tree) (fits : Bool) (items : List Item) : Part → Prop
  | .value _ => ∀ before rest s more, before.isDot = false → Follows rest →
      (∀ behind, Outline.Yields (.expression behind rest) s more []) →
      Outline.Yields (.expression before (trees ++ rest)) (fits && s) (items ++ more) []
  | .arguments _ => ∀ before, before.isDot = false →
      Outline.Yields (.expression before trees) fits items []
  | .statement s => ∀ ending rest, Ended s ending rest → Starting rest →
      Outline.Yields (.statement (trees ++ (ending ++ rest))) fits items rest
  | .body _ => Outline.Yields (.body trees) fits items []

/-- A value with nothing behind it. -/
theorem Part.Yields.alone {e : Expr} {fits : Bool} (h : (Part.value e).Yields trees fits i)
    (hb : before.isDot = false) : Outline.Yields (.expression before trees) fits i [] := by
  simpa using h before [] true [] hb trivial fun _ => .expressionNil

/-- Behind a statement that needs no end there is nothing before the next one. -/
theorem Part.yields_closed {s : Stmt} {fits : Bool} (hs : s.needsEnd = false)
    (h : ∀ rest, Starting rest → Outline.Yields (.statement (trees ++ rest)) fits i rest) :
    (Part.statement s).Yields trees fits i := by
  intro ending rest he hr
  rw [he.eq_nil hs]
  exact h rest hr

/-- What is not read is not read as anything else either. -/
theorem yields_of_false {job : Job} {j : List Item} {after : List Tree}
    (h : Outline.Yields job false i rest) : Outline.Yields job false j after := by
  intro items' rest'
  simpa using h items' rest'

theorem Named.yields (hx : Named x tree)
    (h : ∀ behind, Outline.Yields (.expression behind rest) s i []) :
    Outline.Yields (.expression before (tree :: rest)) s i [] := by
  obtain ⟨token, rfl, -⟩ := hx.leaf
  exact .plain hx.inner (h _)

/-- A word that announces nothing is passed over. -/
theorem yields_word {word : String} (hw : tree.isIdent word = true)
    (ha : word ∉ ["function", "class", "static"])
    (h : ∀ behind, behind.isDot = false → Outline.Yields (.expression behind rest) s i []) :
    Outline.Yields (.expression before (tree :: rest)) s i [] := by
  obtain ⟨token, rfl, hk, rfl⟩ := isIdent_iff.mp hw
  simp only [List.mem_cons, List.not_mem_nil, or_false, not_or] at ha
  refine .plain (by simp [Inner.of, hk, ha]) (h _ ?_)
  simp [Before.of, isDot, Tree.isPunct, Token.isPunct, hk, Before.isDot]

theorem yields_sign {text : String} (hp : tree.isPunct text = true) (ha : text ≠ "=>")
    (h : Outline.Yields (.expression (.of tree) rest) s i []) :
    Outline.Yields (.expression before (tree :: rest)) s i [] := by
  obtain ⟨token, rfl, hp⟩ := isPunct_iff.mp hp
  exact .plain (inner_of_sign hp ha) h

/-- Parameters without defaults hold nothing. -/
theorem Parameters.yields {ps : List String} (h : Parameters ps trees) :
    Outline.Yields (.expression before trees) true [] [] := by
  induction h generalizing before with
  | none => exact .expressionNil
  | one hx => exact hx.yields fun _ => .expressionNil
  | more hx hc _ ih => exact hx.yields fun _ => yields_sign hc (by decide) ih

theorem Members.yields {ms : List String} {members : List Tree} (h : Members ms members)
    (hr : ∀ behind, Outline.Yields (.expression behind rest) s i []) :
    Outline.Yields (.expression before (members ++ rest)) s i [] := by
  induction h generalizing before with
  | none => exact hr _
  | more hd hm _ ih => exact yields_sign hd (by decide) (hm.yields fun _ => ih)

/-- A name is read as a name before parentheses. -/
theorem functionName_named (hx : Named x tree) : functionName (tree :: rest) = (some x, rest) := by
  have hstar := hx.isPunct "*"
  obtain ⟨token, rfl, hk, rfl⟩ := hx.leaf
  simp [functionName, hstar, ident?, hk]

theorem function_yields {word : Tree} {a a' c c' : Token} {ps : List String}
    {parameters inside : List Tree} {fits : Bool} {items : List Item}
    (hw : word.isIdent "function" = true) (hp : Parameters ps parameters)
    (h : Outline.Yields (.body inside) fits items []) (hb : before.isDot = false)
    (hr : ∀ behind, Outline.Yields (.expression behind rest) s more []) :
    Outline.Yields
      (.expression before (word :: .group .paren a a' parameters :: .group .brace c c' inside :: rest))
      (fits && s) ([.scope .function [] (ps.map .bind ++ items)] ++ more) [] := by
  obtain ⟨token, rfl, hk, ht⟩ := isIdent_iff.mp hw
  have hinner : Inner.of before token
      (.group .paren a a' parameters :: .group .brace c c' inside :: rest) = .function := by
    simp [Inner.of, hk, ht, hb, startsWith, Tree.isPunct]
  have hname : functionName (.group .paren a a' parameters :: .group .brace c c' inside :: rest) =
      (none, .group .paren a a' parameters :: .group .brace c c' inside :: rest) := rfl
  have hf : Outline.Yields (.function false _) (true && fits) [.scope .function []
      ((parameterNames parameters).map .bind ++ [] ++ items)] rest :=
    .function hname hp.yields h
  rw [hp.names, List.append_nil, Bool.true_and] at hf
  exact .functionInside hinner hf (hr .other)

/-- Behind the parameters of a function on whose line no body opens, there is nothing to read. -/
theorem function_fails {word : Tree} {a a' : Token} {parameters : List Tree}
    (hw : word.isIdent "function" = true) (hb : before.isDot = false) :
    Outline.Yields (.expression before [word, .group .paren a a' parameters]) false i [] := by
  obtain ⟨token, rfl, hk, ht⟩ := isIdent_iff.mp hw
  have hinner : Inner.of before token [.group .paren a a' parameters] = .function := by
    simp [Inner.of, hk, ht, hb, startsWith, Tree.isPunct]
  have hname : functionName [.group .paren a a' parameters] =
      (none, [.group .paren a a' parameters]) := rfl
  exact yields_of_false (.functionInside hinner (.function_fails hname) .expressionNil)

theorem arrow_yields {sign : Tree} {a a' c c' : Token} {ps : List String}
    {parameters inside : List Tree} {fits : Bool} {items : List Item}
    (hp : Parameters ps parameters) (ha : sign.isPunct "=>" = true)
    (h : Outline.Yields (.body inside) fits items [])
    (hr : ∀ behind, Outline.Yields (.expression behind rest) s more []) :
    Outline.Yields
      (.expression before (.group .paren a a' parameters :: sign :: .group .brace c c' inside :: rest))
      (fits && s) ([.scope .function [] (ps.map .bind ++ items)] ++ more) [] := by
  obtain ⟨token, rfl, ht⟩ := isPunct_iff.mp ha
  have hinner : ∀ behind, Inner.of behind token (.group .brace c c' inside :: rest) = .arrow := by
    intro behind
    have hk := ht
    simp only [Token.isPunct, Bool.and_eq_true, decide_eq_true_eq] at hk
    simp [Inner.of, ht, hk.1]
  have harrow : Outline.Yields (.arrow (.parameters parameters) (.group .brace c c' inside :: rest))
      fits [.scope .function [] (ps.map .bind ++ items)] rest :=
    .arrowBlock (by rw [Before.arrowNames, hp.names]) h
  have hgroup : Outline.Yields
      (.expression before (.group .paren a a' parameters :: .leaf token :: _)) (true && (fits && s))
      ([] ++ ([.scope .function [] (ps.map .bind ++ items)] ++ more)) [] :=
    .group (fun _ => rfl) hp.yields (.arrowInside (hinner _) harrow (hr .other))
  simpa using hgroup

theorem call_yields {ms : List String} {members : List Tree} {a a' : Token} {inside : List Tree}
    {fits : Bool} {items : List Item} (hx : Named x tree) (hm : Members ms members)
    (h : Outline.Yields (.expression .nothing inside) fits items []) (hf : Follows rest)
    (hr : ∀ behind, Outline.Yields (.expression behind rest) s more []) :
    Outline.Yields
      (.expression before (tree :: (members ++ [.group .paren a a' inside]) ++ rest)) (fits && s)
      (items ++ more) [] := by
  have hbrace : startsWith (isGroup .brace) rest = false := by
    cases rest with
    | nil => rfl
    | cons tree rest =>
      obtain ⟨token, rfl, -⟩ := isPunct_iff.mp hf
      rfl
  rw [List.cons_append, List.append_assoc]
  exact hx.yields fun _ => hm.yields fun _ => .group (fun _ => hbrace) h (hr _)

/-- What a declaration yields, whatever its value does. -/
theorem declare_yields {word : Declarer} {name sign : Tree} {fits : Bool} {after : List Tree}
    (hw : tree.isIdent word.text = true) (hn : Named x name) (hs : sign.isPunct "=" = true)
    (hc : ∀ tree ∈ trees, tree.isPunct "," = false)
    (hx : takeExpression (some sign) rest = (trees, after))
    (h : Outline.Yields (.expression .other trees) fits i []) :
    Outline.Yields (.statement (tree :: name :: sign :: rest)) fits (word.item x :: i)
      (skipSemicolon after) := by
  have hcut : takeExpression none (name :: sign :: rest) = (name :: sign :: trees, after) := by
    have hsign : breaksBefore (some name) sign = false :=
      breaksBefore_continues (continues_sign hs (by decide))
    simp [takeExpression, hn.isPunct, isPunct_ne hs, hsign, hx, show breaksBefore none name = false from rfl]
  have hnames : parameterNames (name :: sign :: trees) = [x] :=
    parameterNames_one (boundNames_default hn hs) (by simpa [hn.isPunct, isPunct_ne hs] using hc)
  have hother : Before.of sign = .other := by
    obtain ⟨token, rfl, hp⟩ := isPunct_iff.mp hs
    simp only [Token.isPunct, Bool.and_eq_true, decide_eq_true_eq] at hp
    simp [Before.of, isDot, Tree.isPunct, Token.isPunct, hp]
  have hvalue : Outline.Yields (.expression .nothing (name :: sign :: trees)) fits i [] :=
    hn.yields fun _ => yields_sign hs (by decide) (hother ▸ h)
  have hread := Outline.Yields.declaration (Declarer.form hw hn _) hcut hvalue
  rw [hnames] at hread
  cases word <;> exact hread

/-- A declaration is not read if its value is a function that opens its body on a new line: the value
is taken to end before the body. -/
theorem declareStatement_yields {word : Declarer} {name sign : Tree} {v : Expr}
    {calls : List (List Tree)} {fits : Bool} {ending : List Tree} {s : Stmt}
    (hw : tree.isIdent word.text = true) (hn : Named x name) (hs : sign.isPunct "=" = true)
    (h : Spells (.value v) trees calls fits) (hv : Outline.Yields (.expression .other trees) fits i [])
    (he : Ended s ending rest) (hend : s.needsEnd = true) (hr : Starting rest) :
    Outline.Yields (.statement (tree :: name :: sign :: (trees ++ (ending ++ rest))))
      (fits && v.opensOnLine trees) (word.item x :: i) rest := by
  by_cases ho : v.opensOnLine trees = true
  · have hread := declare_yields hw hn hs h.isPunct_comma ((h.goes hs ho).ended he hend hr) hv
    rwa [he.skipSemicolon hr, ← Bool.and_true fits, ← ho] at hread
  · cases h with
    | @function ps b word' a a' c c' parameters inside _ _ hf =>
      simp only [Expr.opensOnLine, Bool.not_eq_true', Bool.not_eq_false] at ho
      have hcut : takeExpression (some sign)
          ([word', .group .paren a a' parameters, .group .brace c c' inside] ++ (ending ++ rest)) =
          ([word', .group .paren a a' parameters],
            .group .brace c c' inside :: (ending ++ rest)) := by
        obtain ⟨token, rfl, hk, -⟩ := isIdent_iff.mp hf
        have hsign : breaksBefore (some sign) (.leaf token) = false :=
          breaksBefore_sign hs (by decide)
        have hparen : breaksBefore (some (.leaf token)) (.group .paren a a' parameters) = false :=
          breaksBefore_continues rfl
        have hbrace : breaksBefore (some (.group .paren a a' parameters))
            (.group .brace c c' inside) = true := by
          simp [breaksBefore, newlineBefore, ho, Tree.endsExpression, Tree.continuesExpression]
        simp [takeExpression, hsign, hparen, hbrace, Tree.isPunct, Token.isPunct, hk]
      have hcomma : ∀ tree ∈ [word', .group .paren a a' parameters], tree.isPunct "," = false := by
        obtain ⟨token, rfl, hk, -⟩ := isIdent_iff.mp hf
        simp [Tree.isPunct, Token.isPunct, hk]
      have hread := declare_yields hw hn hs hcomma hcut (function_fails (i := i) hf rfl)
      simpa [Expr.opensOnLine, ho] using yields_of_false hread
    | _ => exact absurd rfl ho

/-- A call statement ends where the call ends. -/
theorem callStatement_yields {ms : List String} {es : List Expr} {calls : List (List Tree)}
    {fits : Bool} {ending : List Tree} {s : Stmt} (h : Spells (.value (.call x ms es)) trees calls fits)
    (hr : Outline.Yields (.expression .nothing trees) fits i []) (he : Ended s ending rest)
    (hs : s.needsEnd = true) (hrest : Starting rest) :
    Outline.Yields (.statement (trees ++ (ending ++ rest))) fits (.statement trees :: i) rest := by
  cases h with
  | @call _ _ _ tree members a b inside _ _ hx hm =>
    have hcolon : startsWith (Tree.isPunct ":")
        (members ++ [.group .paren a b inside] ++ (ending ++ rest)) = false := by
      cases hm with
      | none => rfl
      | more hd => simp [startsWith, isPunct_ne hd]
    have hread := Outline.Yields.expressionStatement (hx.form hcolon)
      ((goes_members hm).ended he hs hrest) hr
    rwa [he.skipSemicolon hrest] at hread

section Groups

variable {word other name : Tree} {a a' c c' d d' : Token} {head inside yes no : List Tree}
  {t u : Bool} {j k : List Item}

theorem functionStatement_yields {ps : List String} {parameters : List Tree}
    (hw : word.isIdent "function" = true) (hn : Named x name) (hp : Parameters ps parameters)
    (h : Outline.Yields (.body inside) s i []) :
    Outline.Yields (.statement (word :: name :: .group .paren a a' parameters ::
        .group .brace c c' inside :: rest)) s
      [.scope .function [.bind x] (ps.map .bind ++ i)] rest := by
  have hname : functionName (name :: .group .paren a a' parameters :: .group .brace c c' inside ::
      rest) = (some x, .group .paren a a' parameters :: .group .brace c c' inside :: rest) :=
    functionName_named hn
  have hf : Outline.Yields (.function true _) (true && s)
      [.scope .function (bindName (some x)) ([] ++ (parameterNames parameters).map .bind ++ [] ++ i)]
      rest := .function hname hp.yields h
  rw [hp.names] at hf
  simpa [bindName] using Outline.Yields.functionDeclaration (form_of_word hw _) hf

theorem whileLoop_yields (hw : word.isIdent "while" = true)
    (h : Outline.Yields (.expression .nothing head) s i []) (h' : Outline.Yields (.body inside) t j []) :
    Outline.Yields (.statement (word :: .group .paren a a' head :: .group .brace c c' inside :: rest))
      (s && t) (i ++ [.scope .block [] j]) rest :=
  .whileLoop (form_of_word hw _) h (.block h')

theorem ifElse_yields (hw : word.isIdent "if" = true) (ho : other.isIdent "else" = true)
    (h : Outline.Yields (.expression .nothing head) s i []) (h' : Outline.Yields (.body yes) t j [])
    (h'' : Outline.Yields (.body no) u k []) :
    Outline.Yields (.statement (word :: .group .paren a a' head :: .group .brace c c' yes :: other ::
      .group .brace d d' no :: rest)) (s && t && u)
      (i ++ [.scope .block [] j] ++ [.scope .block [] k]) rest :=
  .ifElse (form_of_word hw _) h (.block h') (behindWord?_cons ho) (.block h'')

theorem forOf_yields {declarer : Declarer} {of : Tree} (hw : word.isIdent "for" = true)
    (hd : tree.isIdent declarer.text = true) (hn : Named x name) (ho : of.isIdent "of" = true)
    (h : ∀ before, before.isDot = false → Outline.Yields (.expression before head) s i [])
    (h' : Outline.Yields (.body inside) t j []) :
    Outline.Yields (.statement (word :: .group .paren a a' (tree :: name :: of :: head) ::
      .group .brace c c' inside :: rest)) (s && t)
      [.scope .block [] ([declarer.item x] ++ i ++ [.scope .block [] j])] rest := by
  have hhead : Outline.Yields (.expression .nothing (tree :: name :: of :: head)) s i [] := by
    refine yields_word hd (by cases declarer <;> decide) fun _ _ => hn.yields fun _ => ?_
    exact yields_word ho (by decide) h
  rw [← loopNames_one hd hn ho]
  exact .forLoop (form_of_word hw _) hhead (.block h')

theorem tryCatch_yields (hw : word.isIdent "try" = true) (ho : other.isIdent "catch" = true)
    (hn : Named x name) (h : Outline.Yields (.body yes) s i []) (h' : Outline.Yields (.body no) t j [])
    (hr : Starting rest) :
    Outline.Yields (.statement (word :: .group .brace a a' yes :: other :: .group .paren c c' [name] ::
      .group .brace d d' no :: rest)) (s && t)
      ([.scope .block [] i] ++ [.scope .block [] ([.bind x] ++ [.scope .block [] j])]) rest := by
  have hfinally : behindWord? "finally" rest = none := by
    cases rest with
    | nil => rfl
    | cons tree rest => simp [behindWord?, hr.2.2]
  have hnames : parameterNames [name] = [x] :=
    parameterNames_one (boundNames_named hn) (by simp [hn.isPunct])
  have hhandler : Outline.Yields
      (.handler (.group .paren c c' [name] :: .group .brace d d' no :: rest)) t
      [.scope .block [] ((parameterNames [name]).map .bind ++ [.scope .block [] j])] rest :=
    .handlerNames (.blockHere h')
  rw [hnames] at hhandler
  have hread : Outline.Yields (.statement (word :: .group .brace a a' yes :: _)) (s && t && true)
      ([.scope .block [] i] ++ _ ++ []) rest :=
    .tryCatch (form_of_word hw _) (.blockHere h) (behindWord?_cons ho) hhandler
      (.cleanupNone hfinally)
  simpa using hread

end Groups

/-- **What a part of a program yields**: its outline, in which the statements are its calls. -/
theorem Spells.yields {part : Part} {calls : List (List Tree)} {fits : Bool}
    (h : Spells part trees calls fits) : ∃ items, Item.eraseAll items = part.outline ∧
      Item.statementsAll items = calls ∧ part.Yields trees fits items := by
  induction h with
  | name hx =>
    refine ⟨[], rfl, rfl, fun before rest s more _ _ hr => ?_⟩
    exact hx.yields hr
  | number hk =>
    refine ⟨[], rfl, rfl, fun before rest s more _ _ hr => ?_⟩
    exact .plain (by simp [Inner.of, Token.isPunct, hk]) (hr _)
  | call hx hm _ _ ih =>
    obtain ⟨items, herase, hcalls, hread⟩ := ih
    refine ⟨items, herase, hcalls, fun before rest s more _ hf hr => ?_⟩
    exact call_yields hx hm (hread _ rfl) hf hr
  | function hw _ hp _ _ ih =>
    obtain ⟨items, herase, hcalls, hread⟩ := ih
    refine ⟨_, ?_, ?_, fun before rest s more hb _ hr => function_yields hw hp hread hb hr⟩
    · simp [herase, Part.outline, Expr.outline]
    · simp [hcalls]
  | arrow _ hp ha _ _ ih =>
    obtain ⟨items, herase, hcalls, hread⟩ := ih
    refine ⟨_, ?_, ?_, fun before rest s more _ _ hr => arrow_yields hp ha hread hr⟩
    · simp [herase, Part.outline, Expr.outline]
    · simp [hcalls]
  | noArguments => exact ⟨[], rfl, rfl, fun _ _ => .expressionNil⟩
  | oneArgument _ ih =>
    obtain ⟨items, herase, hcalls, hread⟩ := ih
    refine ⟨items, ?_, hcalls, fun _ => hread.alone⟩
    simp [herase, Part.outline, argumentOutline]
  | moreArguments _ hc _ ih₁ ih₂ =>
    obtain ⟨items, herase, hcalls, hread⟩ := ih₁
    obtain ⟨items', herase', hcalls', hread'⟩ := ih₂
    refine ⟨items ++ items', ?_, by simp [hcalls, hcalls'], fun before hb => ?_⟩
    · simp only [Part.outline] at herase herase'
      simp [herase, herase', Part.outline, argumentOutline]
    · refine hread before _ _ _ hb hc fun _ => yields_sign hc (by decide) (hread' _ ?_)
      obtain ⟨token, rfl, hp⟩ := isPunct_iff.mp hc
      simp only [Token.isPunct, Bool.and_eq_true, decide_eq_true_eq] at hp
      simp [Before.of, isDot, Tree.isPunct, Token.isPunct, hp, Before.isDot]
  | callStatement h ih =>
    obtain ⟨items, herase, hcalls, hread⟩ := ih
    refine ⟨.statement _ :: items, ?_, by rw [Item.statementsAll_cons, hcalls]; rfl, ?_⟩
    · simp only [Part.outline, Expr.outline] at herase
      simp [herase, Part.outline, Stmt.outline]
    · exact fun _ _ he hr => callStatement_yields h (hread.alone rfl) he rfl hr
  | block _ _ ih =>
    obtain ⟨items, herase, hcalls, hread⟩ := ih
    refine ⟨_, ?_, ?_, Part.yields_closed rfl fun _ _ => .block hread⟩
    · simp [herase, Part.outline, Stmt.outline]
    · simp [hcalls]
  | @declare word x v tree name sign trees calls fits hw hn hs h ih =>
    obtain ⟨items, herase, hcalls, hread⟩ := ih
    refine ⟨word.item x :: items, ?_, by simp [hcalls], fun _ _ he hr => ?_⟩
    · simp only [Part.outline] at herase
      simp [herase, Part.outline, Stmt.outline]
    · exact declareStatement_yields hw hn hs h (hread.alone rfl) he rfl hr
  | functionStatement hw hn _ hp _ _ ih =>
    obtain ⟨items, herase, hcalls, hread⟩ := ih
    refine ⟨_, ?_, ?_, Part.yields_closed rfl fun _ _ => functionStatement_yields hw hn hp hread⟩
    · simp [herase, Part.outline, Stmt.outline]
    · simp [hcalls]
  | ifElse hw _ _ _ _ ho _ _ ih₁ ih₂ ih₃ =>
    obtain ⟨items, herase, hcalls, hread⟩ := ih₁
    obtain ⟨yes, herase', hcalls', hread'⟩ := ih₂
    obtain ⟨no, herase'', hcalls'', hread''⟩ := ih₃
    refine ⟨_, ?_, ?_, Part.yields_closed rfl fun _ _ => ifElse_yields hw ho (hread.alone rfl) hread' hread''⟩
    · simp only [Part.outline] at herase
      simp [herase, herase', herase'', Part.outline, Stmt.outline]
    · simp [hcalls, hcalls', hcalls'']
  | whileLoop hw _ _ _ _ ih₁ ih₂ =>
    obtain ⟨items, herase, hcalls, hread⟩ := ih₁
    obtain ⟨inner, herase', hcalls', hread'⟩ := ih₂
    refine ⟨_, ?_, ?_, Part.yields_closed rfl fun _ _ => whileLoop_yields hw (hread.alone rfl) hread'⟩
    · simp only [Part.outline] at herase
      simp [herase, herase', Part.outline, Stmt.outline]
    · simp [hcalls, hcalls']
  | forOf hw _ hd hn ho _ _ _ ih₁ ih₂ =>
    obtain ⟨items, herase, hcalls, hread⟩ := ih₁
    obtain ⟨inner, herase', hcalls', hread'⟩ := ih₂
    refine ⟨_, ?_, ?_, Part.yields_closed rfl fun _ _ => forOf_yields hw hd hn ho (fun _ => hread.alone) hread'⟩
    · simp only [Part.outline] at herase
      simp [herase, herase', Part.outline, Stmt.outline]
    · simp [hcalls, hcalls']
  | tryCatch hw _ _ ho _ hn _ _ ih₁ ih₂ =>
    obtain ⟨tried, herase, hcalls, hread⟩ := ih₁
    obtain ⟨caught, herase', hcalls', hread'⟩ := ih₂
    refine ⟨_, ?_, ?_, Part.yields_closed rfl fun _ hr => tryCatch_yields hw ho hn hread hread' hr⟩
    · simp [herase, herase', Part.outline, Stmt.outline]
    · simp [hcalls, hcalls']
  | noStatements => exact ⟨[], rfl, rfl, .bodyNil⟩
  | statements h he hb ih₁ ih₂ =>
    obtain ⟨items, herase, hcalls, hread⟩ := ih₁
    obtain ⟨more, herase', hcalls', hread'⟩ := ih₂
    refine ⟨items ++ more, ?_, by simp [hcalls, hcalls'], ?_⟩
    · simp only [Part.outline] at herase herase'
      simp [herase, herase', Part.outline, outlineAll]
    · obtain ⟨tree, rest, rfl⟩ := h.exists_cons
      exact .bodyCons (hread _ _ he hb.starting_body) hread'

end Core

end DeferredLog
