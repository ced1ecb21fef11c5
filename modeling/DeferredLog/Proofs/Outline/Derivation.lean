import DeferredLog.Program.Outline

/-!
# Derivations of outlines

The readers of `Outline` as one inductive relation. `Reads job items rest` says that reading the
trees of a job gives the outline `items` and leaves the trees `rest`. There is a rule for each way
through a reader, so that an argument about every outline is one induction, with one case for each
construct of the language.

* `Reads.form`, `Reads.inner`: a statement is read along its form, a leaf of an expression along what
  it announces.
* `Reads.gives`: a derived outline is the one that the reader gives, whatever trees it is told for
  its faults.

The converse is in `DeferredLog.Proofs.Outline.Exact`.
-/

namespace DeferredLog

open DeferredLog.Tree

namespace Outline

/-! ## Derivations -/

/-- Something to read: what stands at the front of some trees. -/
inductive Job where
  | body (trees : List Tree)
  | statement (trees : List Tree)
  | block (trees : List Tree)
  | handler (trees : List Tree)
  | cleanup (trees : List Tree)
  | switch (trees : List Tree)
  | cases (trees : List Tree)
  | function (declares : Bool) (trees : List Tree)
  | classBody (declares : Bool) (trees : List Tree)
  | exported (trees : List Tree)
  | expression (before : Before) (trees : List Tree)
  | arrow (before : Before) (trees : List Tree)

/-- `Reads job items rest`: what is read is `items`, and `rest` is left. -/
inductive Reads : Job → List Item → List Tree → Prop
  | bodyNil : Reads (.body []) [] []
  | bodyCons {tree rest first after items} :
      Reads (.statement (tree :: rest)) first after → Reads (.body after) items [] →
      Reads (.body (tree :: rest)) (first ++ items) []
  | empty {tree rest} : Form.of tree rest = .empty → Reads (.statement (tree :: rest)) [] rest
  | block {tree rest items after} : Form.of tree rest = .block →
      Reads (.block (tree :: rest)) items after → Reads (.statement (tree :: rest)) items after
  | ifElse {tree a b head rest test yes otherwise after no last} :
      Form.of tree (.group .paren a b head :: rest) = .ifElse →
      Reads (.expression .nothing head) test [] → Reads (.statement rest) yes after →
      behindWord? "else" after = some otherwise → Reads (.statement otherwise) no last →
      Reads (.statement (tree :: .group .paren a b head :: rest)) (test ++ yes ++ no) last
  | ifOnly {tree a b head rest test yes after} :
      Form.of tree (.group .paren a b head :: rest) = .ifElse →
      Reads (.expression .nothing head) test [] → Reads (.statement rest) yes after →
      behindWord? "else" after = none →
      Reads (.statement (tree :: .group .paren a b head :: rest)) (test ++ yes) after
  | whileLoop {tree a b head rest test inner after} :
      Form.of tree (.group .paren a b head :: rest) = .whileLoop →
      Reads (.expression .nothing head) test [] → Reads (.statement rest) inner after →
      Reads (.statement (tree :: .group .paren a b head :: rest)) (test ++ inner) after
  | doWhile {tree rest inner after a b head last test} :
      Form.of tree rest = .doWhile → Reads (.statement rest) inner after →
      behindWord? "while" after = some (.group .paren a b head :: last) →
      Reads (.expression .nothing head) test [] →
      Reads (.statement (tree :: rest)) (inner ++ test) (skipSemicolon last)
  | forLoop {tree rest a b head after test inner last} :
      Form.of tree rest = .forLoop → skipWord "await" rest = .group .paren a b head :: after →
      Reads (.expression .nothing head) test [] → Reads (.statement after) inner last →
      Reads (.statement (tree :: rest))
        [.scope .block [] (loopNames head ++ test ++ inner)] last
  | tryCatch {tree rest tried after handler caught after' last out} :
      Form.of tree rest = .tryCatch → Reads (.block rest) tried after →
      behindWord? "catch" after = some handler → Reads (.handler handler) caught after' →
      Reads (.cleanup after') last out →
      Reads (.statement (tree :: rest)) (tried ++ caught ++ last) out
  | tryOnly {tree rest tried after last out} :
      Form.of tree rest = .tryCatch → Reads (.block rest) tried after →
      behindWord? "catch" after = none → Reads (.cleanup after) last out →
      Reads (.statement (tree :: rest)) (tried ++ last) out
  | switchCases {tree a b head rest test block after} :
      Form.of tree (.group .paren a b head :: rest) = .switchCases →
      Reads (.expression .nothing head) test [] → Reads (.switch rest) block after →
      Reads (.statement (tree :: .group .paren a b head :: rest)) (test ++ block) after
  | functionDeclaration {tree rest items after} :
      Form.of tree rest = .functionDeclaration → Reads (.function true rest) items after →
      Reads (.statement (tree :: rest)) items after
  | asyncFunction {tree rest items after} :
      Form.of tree rest = .asyncFunction → Reads (.function true rest.tail) items after →
      Reads (.statement (tree :: rest)) items after
  | classDeclaration {tree rest items after} :
      Form.of tree rest = .classDeclaration → Reads (.classBody true rest) items after →
      Reads (.statement (tree :: rest)) items after
  | declaration {tree rest hoisted values} :
      Form.of tree rest = .declaration hoisted →
      Reads (.expression .nothing (takeExpression none rest).1) values [] →
      Reads (.statement (tree :: rest))
        ((parameterNames (takeExpression none rest).1).map (if hoisted then .hoist else .bind)
          ++ values)
        (skipSemicolon (takeExpression none rest).2)
  | leave {tree rest value} :
      Form.of tree rest = .leave → startsWith (!·.newlineBefore) rest = true →
      Reads (.expression .nothing (takeExpression none rest).1) value [] →
      Reads (.statement (tree :: rest)) value (skipSemicolon (takeExpression none rest).2)
  | leaveBare {tree rest} :
      Form.of tree rest = .leave → startsWith (!·.newlineBefore) rest = false →
      Reads (.statement (tree :: rest)) [] (skipSemicolon rest)
  | jump {tree rest} : Form.of tree rest = .jump →
      Reads (.statement (tree :: rest)) []
        (skipSemicolon
          (if startsWith (fun t => !t.newlineBefore && isFreeName t) rest then rest.tail else rest))
  | debugger {tree rest} : Form.of tree rest = .debugger →
      Reads (.statement (tree :: rest)) [] (skipSemicolon rest)
  | importClause {tree rest after} :
      Form.of tree rest = .importClause → clauseEnd true true rest = some after →
      Reads (.statement (tree :: rest)) [] (skipSemicolon (skipAttributes after))
  | exportClause {tree rest items after} :
      Form.of tree rest = .exportClause → Reads (.exported rest) items after →
      Reads (.statement (tree :: rest)) items after
  | labelled {tree rest items after} :
      Form.of tree rest = .labelled → Reads (.statement rest.tail) items after →
      Reads (.statement (tree :: rest)) items after
  | expressionStatement {tree rest inner} :
      Form.of tree rest = .expression →
      Reads (.expression .nothing (tree :: (takeExpression (some tree) rest).1)) inner [] →
      Reads (.statement (tree :: rest))
        (.statement (tree :: (takeExpression (some tree) rest).1) :: inner)
        (skipSemicolon (takeExpression (some tree) rest).2)
  | blockHere {a b inside rest inner} :
      Reads (.body inside) inner [] →
      Reads (.block (.group .brace a b inside :: rest)) [.scope .block [] inner] rest
  | handlerNames {a b parameters rest block after} :
      Reads (.block rest) block after →
      Reads (.handler (.group .paren a b parameters :: rest))
        [.scope .block [] ((parameterNames parameters).map .bind ++ block)] after
  | handler {trees block after} :
      Reads (.block trees) block after → Reads (.handler trees) [.scope .block [] block] after
  | cleanup {trees rest items after} :
      behindWord? "finally" trees = some rest → Reads (.block rest) items after →
      Reads (.cleanup trees) items after
  | cleanupNone {trees} : behindWord? "finally" trees = none → Reads (.cleanup trees) [] trees
  | switch {a b inside rest inner} :
      Reads (.cases inside) inner [] →
      Reads (.switch (.group .brace a b inside :: rest)) [.scope .block [] inner] rest
  | casesNil : Reads (.cases []) [] []
  | casesTest {tree rest test after items more} :
      tree.isIdent "case" = true → takeCase 0 rest = some (test, after) →
      Reads (.expression .nothing test) items [] → Reads (.cases after) more [] →
      Reads (.cases (tree :: rest)) (items ++ more) []
  | casesDefault {tree rest items} :
      tree.isIdent "case" = false →
      (tree.isIdent "default" && startsWith (isPunct ":") rest) = true →
      Reads (.cases rest.tail) items [] → Reads (.cases (tree :: rest)) items []
  | casesStatement {tree rest first after items} :
      tree.isIdent "case" = false →
      (tree.isIdent "default" && startsWith (isPunct ":") rest) = false →
      Reads (.statement (tree :: rest)) first after → Reads (.cases after) items [] →
      Reads (.cases (tree :: rest)) (first ++ items) []
  | function {declares trees name a b parameters c d inside rest defaults inner} :
      functionName trees =
        (name, .group .paren a b parameters :: .group .brace c d inside :: rest) →
      Reads (.expression .nothing parameters) defaults [] → Reads (.body inside) inner [] →
      Reads (.function declares trees)
        [.scope .function (if declares then bindName name else [])
          ((if declares then [] else bindName name) ++ (parameterNames parameters).map .bind ++
            defaults ++ inner)] rest
  | classBody {declares trees before inside rest parent members} :
      cutAtBrace (className trees).2 = some (before, inside, rest) →
      Reads (.expression .nothing (heritage before)) parent [] →
      Reads (.expression .nothing inside) members [] →
      Reads (.classBody declares trees)
        [.scope .block ((if declares then bindName (className trees).1 else []) ++ parent)
          ((if declares then [] else bindName (className trees).1) ++ members)] rest
  | exportNames {trees after} :
      startsWith (fun t => t.isPunct "*" || isGroup .brace t) trees = true →
      clauseEnd false true trees = some after →
      Reads (.exported trees) [] (skipSemicolon (skipAttributes after))
  | exportStatement {trees items after} :
      startsWith (fun t => t.isPunct "*" || isGroup .brace t) trees = false →
      behindWord? "default" trees = none → Reads (.statement trees) items after →
      Reads (.exported trees) items after
  | exportFunction {trees value rest items after} :
      startsWith (fun t => t.isPunct "*" || isGroup .brace t) trees = false →
      behindWord? "default" trees = some value → behindWord? "function" value = some rest →
      Reads (.function true rest) items after → Reads (.exported trees) items after
  | exportAsync {trees value rest items after} :
      startsWith (fun t => t.isPunct "*" || isGroup .brace t) trees = false →
      behindWord? "default" trees = some value → behindWord? "function" value = none →
      behindWords? "async" "function" value = some rest →
      Reads (.function true rest) items after → Reads (.exported trees) items after
  | exportClass {trees value rest items after} :
      startsWith (fun t => t.isPunct "*" || isGroup .brace t) trees = false →
      behindWord? "default" trees = some value → behindWord? "function" value = none →
      behindWords? "async" "function" value = none → behindWord? "class" value = some rest →
      Reads (.classBody true rest) items after → Reads (.exported trees) items after
  | exportValue {trees value items} :
      startsWith (fun t => t.isPunct "*" || isGroup .brace t) trees = false →
      behindWord? "default" trees = some value → behindWord? "function" value = none →
      behindWords? "async" "function" value = none → behindWord? "class" value = none →
      Reads (.expression .nothing (takeExpression none value).1) items [] →
      Reads (.exported trees) items (skipSemicolon (takeExpression none value).2)
  | expressionNil {before} : Reads (.expression before []) [] []
  | method {before a b parameters c d inside rest defaults inner items} :
      Reads (.expression .nothing parameters) defaults [] → Reads (.body inside) inner [] →
      Reads (.expression .other rest) items [] →
      Reads (.expression before (.group .paren a b parameters :: .group .brace c d inside :: rest))
        (.scope .function [] ((parameterNames parameters).map .bind ++ defaults ++ inner) :: items)
        []
  | group {before delimiter a b inside rest inner items} :
      (delimiter = .paren → startsWith (isGroup .brace) rest = false) →
      Reads (.expression .nothing inside) inner [] →
      Reads (.expression (.of (.group delimiter a b inside)) rest) items [] →
      Reads (.expression before (.group delimiter a b inside :: rest)) (inner ++ items) []
  | functionInside {before token rest f after items} :
      Inner.of before token rest = .function → Reads (.function false rest) f after →
      Reads (.expression .other after) items [] →
      Reads (.expression before (.leaf token :: rest)) (f ++ items) []
  | classInside {before token rest c after items} :
      Inner.of before token rest = .classBody → Reads (.classBody false rest) c after →
      Reads (.expression .other after) items [] →
      Reads (.expression before (.leaf token :: rest)) (c ++ items) []
  | staticBlock {before token a b inside rest inner items} :
      Inner.of before token (.group .brace a b inside :: rest) = .staticBlock →
      Reads (.body inside) inner [] → Reads (.expression .other rest) items [] →
      Reads (.expression before (.leaf token :: .group .brace a b inside :: rest))
        (.scope .function [] inner :: items) []
  | arrowInside {before token rest f after items} :
      Inner.of before token rest = .arrow → Reads (.arrow before rest) f after →
      Reads (.expression .other after) items [] →
      Reads (.expression before (.leaf token :: rest)) (f ++ items) []
  | plain {before token rest items} :
      Inner.of before token rest = .plain →
      Reads (.expression (.of (.leaf token)) rest) items [] →
      Reads (.expression before (.leaf token :: rest)) items []
  | arrowBlock {before names a b inside rest inner} :
      before.arrowNames = some names → Reads (.body inside) inner [] →
      Reads (.arrow before (.group .brace a b inside :: rest))
        [.scope .function [] (names.map .bind ++ inner)] rest
  | arrowValue {before names tree rest inner} :
      before.arrowNames = some names → isGroup .brace tree = false →
      Reads (.expression .nothing (takeArrowBody (tree :: rest)).1) inner [] →
      Reads (.arrow before (tree :: rest))
        [.scope .function [] (names.map .bind ++ inner)] (takeArrowBody (tree :: rest)).2

/-! ## The way of a form

A statement is read along its form and a leaf of an expression along what it announces. So one case
analysis of a derivation is enough for all that is said of a statement whose form is known. -/

/-- How a statement of a form is read: the jobs that the form makes of what stands here, and what
becomes of the outlines they give. -/
def Form.ReadAs (tree : Tree) (rest : List Tree) (items : List Item) (out : List Tree) : Form → Prop
  | .empty => items = [] ∧ out = rest
  | .block => Reads (.block (tree :: rest)) items out
  | .ifElse => ∃ a b head more test yes after, rest = .group .paren a b head :: more ∧
      Reads (.expression .nothing head) test [] ∧ Reads (.statement more) yes after ∧
      ((∃ otherwise no, behindWord? "else" after = some otherwise ∧
          Reads (.statement otherwise) no out ∧ items = test ++ yes ++ no) ∨
        behindWord? "else" after = none ∧ items = test ++ yes ∧ out = after)
  | .whileLoop => ∃ a b head more test inner, rest = .group .paren a b head :: more ∧
      Reads (.expression .nothing head) test [] ∧ Reads (.statement more) inner out ∧
      items = test ++ inner
  | .doWhile => ∃ inner after a b head last test, Reads (.statement rest) inner after ∧
      behindWord? "while" after = some (.group .paren a b head :: last) ∧
      Reads (.expression .nothing head) test [] ∧ items = inner ++ test ∧ out = skipSemicolon last
  | .forLoop => ∃ a b head more test inner,
      skipWord "await" rest = .group .paren a b head :: more ∧
      Reads (.expression .nothing head) test [] ∧ Reads (.statement more) inner out ∧
      items = [.scope .block [] (loopNames head ++ test ++ inner)]
  | .tryCatch => ∃ tried after, Reads (.block rest) tried after ∧
      ((∃ handler caught after' last, behindWord? "catch" after = some handler ∧
          Reads (.handler handler) caught after' ∧ Reads (.cleanup after') last out ∧
          items = tried ++ caught ++ last) ∨
        ∃ last, behindWord? "catch" after = none ∧ Reads (.cleanup after) last out ∧
          items = tried ++ last)
  | .switchCases => ∃ a b head more test block, rest = .group .paren a b head :: more ∧
      Reads (.expression .nothing head) test [] ∧ Reads (.switch more) block out ∧
      items = test ++ block
  | .functionDeclaration => Reads (.function true rest) items out
  | .asyncFunction => Reads (.function true rest.tail) items out
  | .classDeclaration => Reads (.classBody true rest) items out
  | .declaration hoisted => ∃ values,
      Reads (.expression .nothing (takeExpression none rest).1) values [] ∧
      items = (parameterNames (takeExpression none rest).1).map
        (if hoisted then .hoist else .bind) ++ values ∧
      out = skipSemicolon (takeExpression none rest).2
  | .leave =>
      (startsWith (!·.newlineBefore) rest = true ∧
        Reads (.expression .nothing (takeExpression none rest).1) items [] ∧
        out = skipSemicolon (takeExpression none rest).2) ∨
      startsWith (!·.newlineBefore) rest = false ∧ items = [] ∧ out = skipSemicolon rest
  | .jump => items = [] ∧ out = skipSemicolon
      (if startsWith (fun t => !t.newlineBefore && isFreeName t) rest then rest.tail else rest)
  | .debugger => items = [] ∧ out = skipSemicolon rest
  | .importClause => ∃ after, clauseEnd true true rest = some after ∧ items = [] ∧
      out = skipSemicolon (skipAttributes after)
  | .exportClause => Reads (.exported rest) items out
  | .labelled => Reads (.statement rest.tail) items out
  | .expression => ∃ inner,
      Reads (.expression .nothing (tree :: (takeExpression (some tree) rest).1)) inner [] ∧
      items = .statement (tree :: (takeExpression (some tree) rest).1) :: inner ∧
      out = skipSemicolon (takeExpression (some tree) rest).2

/-- How an expression is read from a leaf on: the jobs that what the leaf announces makes of the
trees behind it. -/
def Inner.ReadAs (before : Before) (token : Token) (rest : List Tree) (items : List Item) :
    Inner → Prop
  | .function => ∃ f after more, Reads (.function false rest) f after ∧
      Reads (.expression .other after) more [] ∧ items = f ++ more
  | .classBody => ∃ c after more, Reads (.classBody false rest) c after ∧
      Reads (.expression .other after) more [] ∧ items = c ++ more
  | .staticBlock => ∃ a b inside after inner more, rest = .group .brace a b inside :: after ∧
      Reads (.body inside) inner [] ∧ Reads (.expression .other after) more [] ∧
      items = .scope .function [] inner :: more
  | .arrow => ∃ f after more, Reads (.arrow before rest) f after ∧
      Reads (.expression .other after) more [] ∧ items = f ++ more
  | .plain => Reads (.expression (.of (.leaf token)) rest) items []

namespace Reads

variable {before : Before} {token : Token} {tree : Tree} {rest out : List Tree} {items : List Item}

/-- A statement is read along its form. -/
theorem form {form : Form} (h : Reads (.statement (tree :: rest)) items out)
    (hf : Form.of tree rest = form) : form.ReadAs tree rest items out := by
  subst hf
  cases h with
  | empty hf | jump hf | debugger hf => exact hf ▸ ⟨rfl, rfl⟩
  | block hf h₁ | functionDeclaration hf h₁ | asyncFunction hf h₁ | classDeclaration hf h₁
  | exportClause hf h₁ | labelled hf h₁ => exact hf ▸ h₁
  | ifElse hf h₁ h₂ he h₃ =>
    exact hf ▸ ⟨_, _, _, _, _, _, _, rfl, h₁, h₂, .inl ⟨_, _, he, h₃, rfl⟩⟩
  | ifOnly hf h₁ h₂ he => exact hf ▸ ⟨_, _, _, _, _, _, _, rfl, h₁, h₂, .inr ⟨he, rfl, rfl⟩⟩
  | whileLoop hf h₁ h₂ | switchCases hf h₁ h₂ => exact hf ▸ ⟨_, _, _, _, _, _, rfl, h₁, h₂, rfl⟩
  | doWhile hf h₁ hw h₂ => exact hf ▸ ⟨_, _, _, _, _, _, _, h₁, hw, h₂, rfl, rfl⟩
  | forLoop hf hs h₁ h₂ => exact hf ▸ ⟨_, _, _, _, _, _, hs, h₁, h₂, rfl⟩
  | tryCatch hf h₁ hc h₂ h₃ => exact hf ▸ ⟨_, _, h₁, .inl ⟨_, _, _, _, hc, h₂, h₃, rfl⟩⟩
  | tryOnly hf h₁ hc h₂ => exact hf ▸ ⟨_, _, h₁, .inr ⟨_, hc, h₂, rfl⟩⟩
  | declaration hf h₁ | expressionStatement hf h₁ => exact hf ▸ ⟨_, h₁, rfl, rfl⟩
  | leave hf hn h₁ => exact hf ▸ .inl ⟨hn, h₁, rfl⟩
  | leaveBare hf hn => exact hf ▸ .inr ⟨hn, rfl, rfl⟩
  | importClause hf he => exact hf ▸ ⟨_, he, rfl, rfl⟩

/-- An expression that starts with a leaf is read along what the leaf announces. -/
theorem inner {inner : Inner} (h : Reads (.expression before (.leaf token :: rest)) items out)
    (hi : Inner.of before token rest = inner) :
    out = [] ∧ inner.ReadAs before token rest items := by
  subst hi
  cases h with
  | functionInside hi h₁ h₂ | classInside hi h₁ h₂ | arrowInside hi h₁ h₂ =>
    exact ⟨rfl, hi ▸ ⟨_, _, _, h₁, h₂, rfl⟩⟩
  | staticBlock hi h₁ h₂ => exact ⟨rfl, hi ▸ ⟨_, _, _, _, _, _, rfl, h₁, h₂, rfl⟩⟩
  | plain hi h₁ => exact ⟨rfl, hi ▸ h₁⟩

/-- A group that is not the parameters of a method is read for what is nested in it. -/
theorem group_inv {delimiter : Delimiter} {a b : Token} {inside : List Tree}
    (hn : delimiter = .paren → startsWith (isGroup .brace) rest = false)
    (h : Reads (.expression before (.group delimiter a b inside :: rest)) items out) :
    out = [] ∧ ∃ inner more, Reads (.expression .nothing inside) inner [] ∧
      Reads (.expression (.of (.group delimiter a b inside)) rest) more [] ∧
      items = inner ++ more := by
  cases h with
  | method => cases hn rfl
  | group _ h₁ h₂ => exact ⟨rfl, _, _, h₁, h₂, rfl⟩

end Reads

/-! ## What readers give -/

/-- A reader gave an outline and left some trees. -/
def Gave {bound : Nat} (result : Except Fault (Step bound)) (items : List Item)
    (rest : List Tree) : Prop :=
  ∃ step, result = .ok step ∧ step.items = items ∧ step.rest = rest

theorem gave_ok {bound : Nat} {items : List Item} {rest : List Tree} (h : weights rest < bound) :
    Gave (.ok ⟨items, rest, h⟩) items rest := ⟨_, rfl, rfl, rfl⟩

/-- What the reader of a job gives, whatever trees it is told for its faults. -/
def Job.Gives (items : List Item) (rest : List Tree) : Job → Prop
  | .body trees => Outline.body trees = .ok items ∧ rest = []
  | .statement trees => ∀ whole, Gave (required trees whole) items rest
  | .block trees => ∀ part whole, Gave (blockHere part trees whole) items rest
  | .handler trees => ∀ whole, Gave (catchClause trees whole) items rest
  | .cleanup trees => ∀ whole, Gave (finallyClause trees whole) items rest
  | .switch trees => ∀ whole, Gave (switchBlock trees whole) items rest
  | .cases trees => Outline.cases trees = .ok items ∧ rest = []
  | .function declares trees => ∀ whole, Gave (Outline.function declares trees whole) items rest
  | .classBody declares trees => ∀ whole, Gave (Outline.classBody declares trees whole) items rest
  | .exported trees => ∀ whole, Gave (Outline.exportClause trees whole) items rest
  | .expression before trees => Outline.expression before trees = .ok items ∧ rest = []
  | .arrow before trees => ∀ token, Gave (Outline.arrow before token trees) items rest

/-! ## Every derived outline is given -/

theorem bind_gave {α : Type} {bound : Nat} {x : Except Fault α} {a : α}
    {f : α → Except Fault (Step bound)} {items : List Item} {rest : List Tree} (h : x = .ok a)
    (k : Gave (f a) items rest) : Gave (x >>= f) items rest := by
  rw [h]
  exact k

theorem Gave.bind {m n : Nat} {x : Except Fault (Step m)} {f : Step m → Except Fault (Step n)}
    {items out : List Item} {rest after : List Tree} (h : Gave x items rest)
    (k : ∀ step, step.items = items → step.rest = rest → Gave (f step) out after) :
    Gave (x >>= f) out after := by
  obtain ⟨step, rfl, hi, hr⟩ := h
  exact k step hi hr

theorem Gave.pass {m n : Nat} {x : Except Fault (Step m)} {f : Step m → Except Fault (Step n)}
    {items : List Item} {rest : List Tree} (h : Gave x items rest)
    (k : ∀ step, ∃ hlt, f step = .ok ⟨step.items, step.rest, hlt⟩) :
    Gave (x >>= f) items rest := by
  obtain ⟨step, rfl, rfl, rfl⟩ := h
  obtain ⟨hlt, hf⟩ := k step
  exact ⟨_, hf, rfl, rfl⟩

theorem bind_ok {α β : Type} {x : Except Fault α} {f : α → Except Fault β} {a : α} {b : β}
    (h : x = .ok a) (k : f a = .ok b) : (x >>= f) = .ok b := by
  rw [h]
  exact k

theorem gave_statement {tree : Tree} {rest : List Tree} {items : List Item} {after : List Tree}
    (h : Gave (statement tree rest) items after) :
    Job.Gives items after (.statement (tree :: rest)) := by
  intro whole
  rw [required]
  exact h

theorem Job.Gives.statement {tree : Tree} {rest : List Tree} {items : List Item}
    {after : List Tree} (h : Job.Gives items after (.statement (tree :: rest))) :
    Gave (Outline.statement tree rest) items after := by
  have h := h []
  rwa [required] at h

section Asks

variable {bound : Nat} {x : Option (List Tree)} {a : List Tree}
variable {f : (a : List Tree) → x = some a → Except Fault (Step bound)}
variable {g : x = none → Except Fault (Step bound)} {items : List Item} {rest : List Tree}

/-! A reader asks whether a word stands here and its branches keep the answer, so that no rewriting
of the answer reaches them. -/

theorem gave_some (hx : x = some a) (k : Gave (f a hx) items rest) :
    Gave (match h : x with | some a => f a h | none => g h) items rest := by
  subst hx
  exact k

theorem gave_none (hx : x = none) (k : Gave (g hx) items rest) :
    Gave (match h : x with | some a => f a h | none => g h) items rest := by
  subst hx
  exact k

theorem gave_none_or_some (hx : x = some a) (k : Gave (f a hx) items rest) :
    Gave (match h : x with | none => g h | some a => f a h) items rest := by
  subst hx
  exact k

theorem gave_none_or_none (hx : x = none) (k : Gave (g hx) items rest) :
    Gave (match h : x with | none => g h | some a => f a h) items rest := by
  subst hx
  exact k

end Asks

theorem moduleClause_gave {required : Bool} {trees after : List Tree}
    (h : clauseEnd required true trees = some after) (whole : List Tree) :
    Gave (moduleClause required trees whole) [] (skipSemicolon (skipAttributes after)) := by
  unfold moduleClause
  refine gave_none_or_some h ?_
  exact gave_ok _

/-- A derived outline is the one that the reader gives. -/
theorem Reads.gives {job : Job} {items : List Item} {rest : List Tree}
    (h : Reads job items rest) : job.Gives items rest := by
  induction h with
  | bodyNil => exact ⟨by rw [Outline.body], rfl⟩
  | bodyCons _ _ ih₁ ih₂ =>
    obtain ⟨step, hs, rfl, rfl⟩ := ih₁.statement
    rw [Job.Gives] at ih₂
    refine ⟨?_, rfl⟩
    rw [Outline.body]
    exact bind_ok hs (bind_ok ih₂.1 rfl)
  | empty hf =>
    refine gave_statement ?_
    unfold Outline.statement
    simp only [hf]
    exact gave_ok _
  | block hf _ ih =>
    refine gave_statement ?_
    unfold Outline.statement
    simp only [hf]
    exact ih _ _
  | ifElse hf _ _ he _ ih₁ ih₂ ih₃ =>
    refine gave_statement ?_
    unfold Outline.statement
    simp only [hf]
    refine bind_gave ih₁.1 ((ih₂ _).bind ?_)
    rintro step rfl rfl
    refine gave_some he ?_
    refine (ih₃ _).bind ?_
    rintro step' rfl rfl
    exact gave_ok _
  | ifOnly hf _ _ he ih₁ ih₂ =>
    refine gave_statement ?_
    unfold Outline.statement
    simp only [hf]
    refine bind_gave ih₁.1 ((ih₂ _).bind ?_)
    rintro step rfl rfl
    refine gave_none he ?_
    exact gave_ok _
  | whileLoop hf _ _ ih₁ ih₂ =>
    refine gave_statement ?_
    unfold Outline.statement
    simp only [hf]
    refine bind_gave ih₁.1 ((ih₂ _).bind ?_)
    rintro step rfl rfl
    exact gave_ok _
  | doWhile hf _ hw _ ih₁ ih₂ =>
    refine gave_statement ?_
    unfold Outline.statement
    simp only [hf]
    refine (ih₁ _).bind ?_
    rintro step rfl rfl
    split
    · rename_i h
      cases hw.symm.trans h
    · rename_i h
      cases hw.symm.trans h
      exact bind_gave ih₂.1 (gave_ok _)
    · rename_i hne h
      cases hw.symm.trans h
      exact absurd rfl (hne _ _ _ _)
  | forLoop hf hs _ _ ih₁ ih₂ =>
    refine gave_statement ?_
    unfold Outline.statement
    simp only [hf]
    split
    · rename_i h _
      cases hs.symm.trans h
      refine bind_gave ih₁.1 ((ih₂ _).bind ?_)
      rintro step rfl rfl
      exact gave_ok _
    · rename_i hne
      exact (hne _ _ _ _ (hs ▸ weights_skipWord_le "await" _) hs (proof_irrel_heq _ _)).elim
  | tryCatch hf _ hc _ _ ih₁ ih₂ ih₃ =>
    refine gave_statement ?_
    unfold Outline.statement
    simp only [hf]
    refine (ih₁ _ _).bind ?_
    rintro step rfl rfl
    refine gave_some hc ?_
    refine (ih₂ _).bind ?_
    rintro step' rfl rfl
    refine (ih₃ _).bind ?_
    rintro step'' rfl rfl
    exact gave_ok _
  | tryOnly hf _ hc _ ih₁ ih₂ =>
    refine gave_statement ?_
    unfold Outline.statement
    simp only [hf]
    refine (ih₁ _ _).bind ?_
    rintro step rfl rfl
    refine gave_none hc ?_
    refine (ih₂ _).bind ?_
    rintro step' rfl rfl
    exact gave_ok _
  | switchCases hf _ _ ih₁ ih₂ =>
    refine gave_statement ?_
    unfold Outline.statement
    simp only [hf]
    refine bind_gave ih₁.1 ((ih₂ _).bind ?_)
    rintro step rfl rfl
    exact gave_ok _
  | functionDeclaration hf _ ih | asyncFunction hf _ ih | classDeclaration hf _ ih
  | exportClause hf _ ih | labelled hf _ ih =>
    refine gave_statement ?_
    unfold Outline.statement
    simp only [hf]
    exact (ih _).pass fun _ => ⟨_, rfl⟩
  | declaration hf _ ih =>
    refine gave_statement ?_
    unfold Outline.statement
    simp only [hf]
    exact bind_gave ih.1 (gave_ok _)
  | leave hf hn _ ih =>
    refine gave_statement ?_
    unfold Outline.statement
    simp only [hf, hn, if_true]
    exact bind_gave ih.1 (gave_ok _)
  | leaveBare hf hn =>
    refine gave_statement ?_
    unfold Outline.statement
    simp only [hf, hn, Bool.false_eq_true, if_false]
    exact gave_ok _
  | jump hf | debugger hf =>
    refine gave_statement ?_
    unfold Outline.statement
    simp only [hf]
    exact gave_ok _
  | importClause hf he =>
    refine gave_statement ?_
    unfold Outline.statement
    simp only [hf]
    exact (moduleClause_gave he _).pass fun _ => ⟨_, rfl⟩
  | expressionStatement hf _ ih =>
    refine gave_statement ?_
    unfold Outline.statement
    simp only [hf]
    exact bind_gave ih.1 (gave_ok _)
  | blockHere _ ih =>
    intro part whole
    rw [Outline.blockHere]
    exact bind_gave ih.1 (gave_ok _)
  | handlerNames _ ih =>
    intro whole
    rw [catchClause]
    refine (ih _ _).bind ?_
    rintro step rfl rfl
    exact gave_ok _
  | handler hb ih =>
    intro whole
    cases hb with
    | blockHere =>
      rw [catchClause]
      · refine (ih _ _).bind ?_
        intro step hi hr
        exact ⟨_, rfl, by rw [hi], hr⟩
      · simp
  | cleanup hf _ ih =>
    intro whole
    unfold finallyClause
    refine gave_some hf ?_
    refine (ih _ _).bind ?_
    rintro step rfl rfl
    exact gave_ok _
  | cleanupNone hf =>
    intro whole
    unfold finallyClause
    refine gave_none hf ?_
    exact gave_ok _
  | switch _ ih =>
    intro whole
    rw [switchBlock]
    exact bind_gave ih.1 (gave_ok _)
  | casesNil => exact ⟨by rw [Outline.cases], rfl⟩
  | casesTest hc ht _ _ ih₁ ih₂ =>
    refine ⟨?_, rfl⟩
    rw [Outline.cases]
    simp only [hc, if_true]
    split
    · rename_i h
      cases ht.symm.trans h
    · rename_i h
      cases ht.symm.trans h
      exact bind_ok ih₁.1 (bind_ok ih₂.1 rfl)
  | casesDefault hc hd _ ih =>
    refine ⟨?_, rfl⟩
    rw [Outline.cases]
    simp only [hc, hd, Bool.false_eq_true, if_false, if_true]
    exact ih.1
  | casesStatement hc hd _ _ ih₁ ih₂ =>
    refine ⟨?_, rfl⟩
    rw [Outline.cases]
    simp only [hc, hd, Bool.false_eq_true, if_false]
    obtain ⟨step, hs, rfl, rfl⟩ := ih₁.statement
    exact bind_ok hs (bind_ok ih₂.1 rfl)
  | function hn _ _ ih₁ ih₂ =>
    intro whole
    unfold Outline.function
    split
    · rename_i h _
      cases hn.symm.trans h
      exact bind_gave ih₁.1 (bind_gave ih₂.1 (gave_ok _))
    · rename_i hle hne h _
      cases hn.symm.trans h
      exact (hne _ _ _ _ hle rfl HEq.rfl).elim
    · rename_i hle hne _ h _
      cases hn.symm.trans h
      exact (hne _ _ _ _ _ _ _ hle rfl HEq.rfl).elim
  | classBody hc _ _ ih₁ ih₂ =>
    intro whole
    unfold Outline.classBody
    split
    · rename_i h
      cases hc.symm.trans h
    · rename_i h
      cases hc.symm.trans h
      exact bind_gave ih₁.1 (bind_gave ih₂.1 (gave_ok _))
  | exportNames hs he =>
    intro whole
    unfold Outline.exportClause
    simp only [hs, if_true]
    exact moduleClause_gave he _
  | exportStatement hs hd _ ih =>
    intro whole
    unfold Outline.exportClause
    simp only [hs, Bool.false_eq_true, if_false]
    refine gave_none_or_none hd ?_
    refine (ih _).bind ?_
    rintro step rfl rfl
    exact gave_ok _
  | exportFunction hs hd hf _ ih =>
    intro whole
    unfold Outline.exportClause
    simp only [hs, Bool.false_eq_true, if_false]
    refine gave_none_or_some hd ?_
    refine gave_some hf ?_
    refine (ih _).bind ?_
    rintro step rfl rfl
    exact gave_ok _
  | exportAsync hs hd hf ha _ ih =>
    intro whole
    unfold Outline.exportClause
    simp only [hs, Bool.false_eq_true, if_false]
    refine gave_none_or_some hd ?_
    refine gave_none hf ?_
    refine gave_some ha ?_
    exact (ih _).pass fun _ => ⟨_, rfl⟩
  | exportClass hs hd hf ha hc _ ih =>
    intro whole
    unfold Outline.exportClause
    simp only [hs, Bool.false_eq_true, if_false]
    refine gave_none_or_some hd ?_
    refine gave_none hf ?_
    refine gave_none ha ?_
    refine gave_some hc ?_
    exact (ih _).pass fun _ => ⟨_, rfl⟩
  | exportValue hs hd hf ha hc _ ih =>
    intro whole
    unfold Outline.exportClause
    simp only [hs, Bool.false_eq_true, if_false]
    refine gave_none_or_some hd ?_
    refine gave_none hf ?_
    refine gave_none ha ?_
    refine gave_none hc ?_
    exact bind_gave ih.1 (gave_ok _)
  | expressionNil => exact ⟨by rw [Outline.expression], rfl⟩
  | method _ _ _ ih₁ ih₂ ih₃ =>
    refine ⟨?_, rfl⟩
    rw [Outline.expression]
    exact bind_ok ih₁.1 (bind_ok ih₂.1 (bind_ok ih₃.1 rfl))
  | group hm _ _ ih₁ ih₂ =>
    refine ⟨?_, rfl⟩
    rw [Outline.expression]
    · exact bind_ok ih₁.1 (bind_ok ih₂.1 rfl)
    · rintro a b c d rfl rfl
      simp [startsWith, isGroup, inside?] at hm
  | functionInside hi _ _ ih₁ ih₂ | classInside hi _ _ ih₁ ih₂ | arrowInside hi _ _ ih₁ ih₂ =>
    refine ⟨?_, rfl⟩
    unfold Outline.expression
    simp only [hi]
    obtain ⟨step, hs, rfl, rfl⟩ := ih₁ _
    exact bind_ok hs (bind_ok ih₂.1 rfl)
  | staticBlock hi _ _ ih₁ ih₂ =>
    refine ⟨?_, rfl⟩
    unfold Outline.expression
    simp only [hi]
    exact bind_ok ih₁.1 (bind_ok ih₂.1 rfl)
  | plain hi _ ih =>
    refine ⟨?_, rfl⟩
    unfold Outline.expression
    simp only [hi]
    exact ih.1
  | arrowBlock hn _ ih =>
    intro token
    unfold Outline.arrow
    simp only [hn]
    exact bind_gave ih.1 (gave_ok _)
  | @arrowValue _ _ tree _ _ hn hb _ ih =>
    intro token
    unfold Outline.arrow
    simp only [hn]
    cases tree with
    | leaf => exact bind_gave ih.1 (gave_ok _)
    | group delimiter _ _ _ =>
      cases delimiter with
      | brace => simp [isGroup, inside?] at hb
      | paren | bracket | template => exact bind_gave ih.1 (gave_ok _)

end Outline

end DeferredLog
