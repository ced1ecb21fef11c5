import Mathlib.Logic.Relation
import DeferredLog.Proofs.CallSite.Shape
import DeferredLog.Proofs.Outline.Exact
import DeferredLog.Proofs.Tree.Alike
import DeferredLog.Proofs.Tree.Run

/-!
# What the walk visits

Reading a job leads to the jobs that it is made of. `Rule` has the rules of `Reads` once more, with these
jobs as data: in order, with the tokens and scopes that come before each of them. So it can be said where
in the text a job is read, and how many scopes are open by then (`Spot`), and which of them the walk over
a program comes to (`Visits`).

* `Reads.induct`: an argument about everything that is read, rule by rule.
* `Rule.reads`: the rules are those of `Reads`.
* `Rule.stands`, `Visits.stands`: the trees of a job that is visited stand together in the text.
* `Visits.reads`: and they are read.
-/

namespace DeferredLog

namespace Item

mutual

/-- The number of scopes that a part of an outline opens. -/
def scopes : Item → Nat
  | .bind _ | .hoist _ | .statement _ => 0
  | .scope _ outside inside => 1 + scopesAll outside + scopesAll inside

/-- The number of scopes that an outline opens. -/
def scopesAll : List Item → Nat
  | [] => 0
  | item :: items => item.scopes + scopesAll items

end

@[simp]
theorem scopes_scope (kind : ScopeKind) (outside inside : List Item) :
    (scope kind outside inside).scopes = 1 + scopesAll outside + scopesAll inside := rfl

@[simp]
theorem scopesAll_nil : scopesAll [] = 0 := rfl

@[simp]
theorem scopesAll_cons (item : Item) (items : List Item) :
    scopesAll (item :: items) = item.scopes + scopesAll items := rfl

@[simp]
theorem scopesAll_append (a b : List Item) : scopesAll (a ++ b) = scopesAll a + scopesAll b := by
  induction a with
  | nil => simp
  | cons item a ih => simp [ih, Nat.add_assoc]

end Item

open DeferredLog.Tree

namespace Outline

/-! ## Rules -/

/-- The trees of a job. -/
def Job.trees : Job → List Tree
  | .body trees | .statement trees | .block trees | .handler trees | .cleanup trees | .switch trees
  | .cases trees | .function _ trees | .classBody _ trees | .exported trees | .expression _ trees
  | .arrow _ trees => trees

/-- A job that another one leads to, with what it gives. -/
structure Part where
  /-- The tokens between the part before, or the start, and this one. -/
  gap : List Token
  /-- The number of scopes that open between them. -/
  opens : Nat
  /-- Whether it stands in the scope that opens there or opened before it. -/
  inside : Bool
  /-- The job. -/
  job : Job
  /-- What it gives. -/
  items : List Item
  /-- What it leaves. -/
  rest : List Tree

/-- `Rule job parts items rest`: if the parts are read, one after another, then so is the job. -/
inductive Rule : Job → List Part → List Item → List Tree → Prop
  | bodyNil : Rule (.body []) [] [] []
  | bodyCons {tree rest first after items} : Rule (.body (tree :: rest))
      [⟨[], 0, false, .statement (tree :: rest), first, after⟩, ⟨[], 0, false, .body after, items, []⟩]
      (first ++ items) []
  | empty {tree rest} : Form.of tree rest = .empty → Rule (.statement (tree :: rest)) [] [] rest
  | block {tree rest items after} : Form.of tree rest = .block → Rule (.statement (tree :: rest))
      [⟨[], 0, false, .block (tree :: rest), items, after⟩] items after
  | ifElse {tree a b head rest test yes word otherwise no last} :
      Form.of tree (.group .paren a b head :: rest) = .ifElse → word.isIdent "else" = true →
      Rule (.statement (tree :: .group .paren a b head :: rest))
        [⟨tree.flatten ++ [a], 0, false, .expression .nothing head, test, []⟩,
          ⟨[b], 0, false, .statement rest, yes, word :: otherwise⟩,
          ⟨word.flatten, 0, false, .statement otherwise, no, last⟩]
        (test ++ yes ++ no) last
  | ifOnly {tree a b head rest test yes after} :
      Form.of tree (.group .paren a b head :: rest) = .ifElse → behindWord? "else" after = none →
      Rule (.statement (tree :: .group .paren a b head :: rest))
        [⟨tree.flatten ++ [a], 0, false, .expression .nothing head, test, []⟩,
          ⟨[b], 0, false, .statement rest, yes, after⟩]
        (test ++ yes) after
  | whileLoop {tree a b head rest test inner after} :
      Form.of tree (.group .paren a b head :: rest) = .whileLoop →
      Rule (.statement (tree :: .group .paren a b head :: rest))
        [⟨tree.flatten ++ [a], 0, false, .expression .nothing head, test, []⟩,
          ⟨[b], 0, false, .statement rest, inner, after⟩]
        (test ++ inner) after
  | doWhile {tree rest inner word a b head last test} :
      Form.of tree rest = .doWhile → word.isIdent "while" = true →
      Rule (.statement (tree :: rest))
        [⟨tree.flatten, 0, false, .statement rest, inner, word :: .group .paren a b head :: last⟩,
          ⟨word.flatten ++ [a], 0, false, .expression .nothing head, test, []⟩]
        (inner ++ test) (skipSemicolon last)
  | forLoop {tree await a b head after test inner last} :
      Form.of tree (await ++ .group .paren a b head :: after) = .forLoop →
      skipWord "await" (await ++ .group .paren a b head :: after) = .group .paren a b head :: after →
      Rule (.statement (tree :: (await ++ .group .paren a b head :: after)))
        [⟨flattenAll (tree :: await) ++ [a], 1, true, .expression .nothing head, test, []⟩,
          ⟨[b], 0, true, .statement after, inner, last⟩]
        [.scope .block [] (loopNames head ++ test ++ inner)] last
  | tryCatch {tree rest tried word handler caught after last out} :
      Form.of tree rest = .tryCatch → word.isIdent "catch" = true →
      Rule (.statement (tree :: rest))
        [⟨tree.flatten, 0, false, .block rest, tried, word :: handler⟩,
          ⟨word.flatten, 0, false, .handler handler, caught, after⟩, ⟨[], 0, false, .cleanup after, last, out⟩]
        (tried ++ caught ++ last) out
  | tryOnly {tree rest tried after last out} :
      Form.of tree rest = .tryCatch → behindWord? "catch" after = none →
      Rule (.statement (tree :: rest))
        [⟨tree.flatten, 0, false, .block rest, tried, after⟩, ⟨[], 0, false, .cleanup after, last, out⟩]
        (tried ++ last) out
  | switchCases {tree a b head rest test block after} :
      Form.of tree (.group .paren a b head :: rest) = .switchCases →
      Rule (.statement (tree :: .group .paren a b head :: rest))
        [⟨tree.flatten ++ [a], 0, false, .expression .nothing head, test, []⟩,
          ⟨[b], 0, false, .switch rest, block, after⟩]
        (test ++ block) after
  | functionDeclaration {tree rest items after} :
      Form.of tree rest = .functionDeclaration →
      Rule (.statement (tree :: rest)) [⟨tree.flatten, 0, false, .function true rest, items, after⟩] items after
  | asyncFunction {tree word rest items after} :
      Form.of tree (word :: rest) = .asyncFunction →
      Rule (.statement (tree :: word :: rest))
        [⟨flattenAll [tree, word], 0, false, .function true rest, items, after⟩] items after
  | classDeclaration {tree rest items after} :
      Form.of tree rest = .classDeclaration →
      Rule (.statement (tree :: rest)) [⟨tree.flatten, 0, false, .classBody true rest, items, after⟩] items after
  | declaration {tree rest hoisted values} :
      Form.of tree rest = .declaration hoisted →
      Rule (.statement (tree :: rest))
        [⟨tree.flatten, 0, false, .expression .nothing (takeExpression none rest).1, values, []⟩]
        ((parameterNames (takeExpression none rest).1).map (if hoisted then .hoist else .bind)
          ++ values)
        (skipSemicolon (takeExpression none rest).2)
  | leave {tree rest value} :
      Form.of tree rest = .leave → startsWith (!·.newlineBefore) rest = true →
      Rule (.statement (tree :: rest))
        [⟨tree.flatten, 0, false, .expression .nothing (takeExpression none rest).1, value, []⟩]
        value (skipSemicolon (takeExpression none rest).2)
  | leaveBare {tree rest} :
      Form.of tree rest = .leave → startsWith (!·.newlineBefore) rest = false →
      Rule (.statement (tree :: rest)) [] [] (skipSemicolon rest)
  | jump {tree rest} : Form.of tree rest = .jump →
      Rule (.statement (tree :: rest)) [] []
        (skipSemicolon
          (if startsWith (fun t => !t.newlineBefore && isFreeName t) rest then rest.tail else rest))
  | debugger {tree rest} : Form.of tree rest = .debugger →
      Rule (.statement (tree :: rest)) [] [] (skipSemicolon rest)
  | importClause {tree rest after} :
      Form.of tree rest = .importClause → clauseEnd true true rest = some after →
      Rule (.statement (tree :: rest)) [] [] (skipSemicolon (skipAttributes after))
  | exportClause {tree rest items after} :
      Form.of tree rest = .exportClause →
      Rule (.statement (tree :: rest)) [⟨tree.flatten, 0, false, .exported rest, items, after⟩] items after
  | labelled {tree colon rest items after} :
      Form.of tree (colon :: rest) = .labelled →
      Rule (.statement (tree :: colon :: rest))
        [⟨flattenAll [tree, colon], 0, false, .statement rest, items, after⟩] items after
  | expressionStatement {tree rest inner} :
      Form.of tree rest = .expression →
      Rule (.statement (tree :: rest))
        [⟨[], 0, false, .expression .nothing (tree :: (takeExpression (some tree) rest).1), inner, []⟩]
        (.statement (tree :: (takeExpression (some tree) rest).1) :: inner)
        (skipSemicolon (takeExpression (some tree) rest).2)
  | blockHere {a b inside rest inner} :
      Rule (.block (.group .brace a b inside :: rest)) [⟨[a], 1, true, .body inside, inner, []⟩]
        [.scope .block [] inner] rest
  | handlerNames {a b parameters rest block after} :
      Rule (.handler (.group .paren a b parameters :: rest))
        [⟨flattenAll [.group .paren a b parameters], 1, true, .block rest, block, after⟩]
        [.scope .block [] ((parameterNames parameters).map .bind ++ block)] after
  | handler {trees block after} :
      Rule (.handler trees) [⟨[], 1, true, .block trees, block, after⟩] [.scope .block [] block] after
  | cleanup {word rest items after} : word.isIdent "finally" = true →
      Rule (.cleanup (word :: rest)) [⟨word.flatten, 0, false, .block rest, items, after⟩] items after
  | cleanupNone {trees} : behindWord? "finally" trees = none → Rule (.cleanup trees) [] [] trees
  | switch {a b inside rest inner} :
      Rule (.switch (.group .brace a b inside :: rest)) [⟨[a], 1, true, .cases inside, inner, []⟩]
        [.scope .block [] inner] rest
  | casesNil : Rule (.cases []) [] [] []
  | casesTest {tree test colon after items more} :
      tree.isIdent "case" = true → takeCase 0 (test ++ colon :: after) = some (test, after) →
      colon.isPunct ":" = true →
      Rule (.cases (tree :: (test ++ colon :: after)))
        [⟨tree.flatten, 0, false, .expression .nothing test, items, []⟩,
          ⟨colon.flatten, 0, false, .cases after, more, []⟩]
        (items ++ more) []
  | casesDefault {tree colon rest items} :
      tree.isIdent "case" = false →
      tree.isIdent "default" = true → colon.isPunct ":" = true →
      Rule (.cases (tree :: colon :: rest)) [⟨flattenAll [tree, colon], 0, false, .cases rest, items, []⟩]
        items []
  | casesStatement {tree rest first after items} :
      tree.isIdent "case" = false →
      (tree.isIdent "default" && startsWith (isPunct ":") rest) = false →
      Rule (.cases (tree :: rest))
        [⟨[], 0, false, .statement (tree :: rest), first, after⟩, ⟨[], 0, false, .cases after, items, []⟩]
        (first ++ items) []
  | function {declares front name a b parameters c d inside rest defaults inner} :
      functionName (front ++ .group .paren a b parameters :: .group .brace c d inside :: rest) =
        (name, .group .paren a b parameters :: .group .brace c d inside :: rest) →
      Rule (.function declares
          (front ++ .group .paren a b parameters :: .group .brace c d inside :: rest))
        [⟨flattenAll front ++ [a], 1, true, .expression .nothing parameters, defaults, []⟩,
          ⟨[b, c], 0, true, .body inside, inner, []⟩]
        [.scope .function (if declares then bindName name else [])
          ((if declares then [] else bindName name) ++ (parameterNames parameters).map .bind ++
            defaults ++ inner)] rest
  | classBody {declares front lead before trail c d inside rest name parent members} :
      className (front ++ (before ++ .group .brace c d inside :: rest)) =
        (name, before ++ .group .brace c d inside :: rest) →
      cutAtBrace (before ++ .group .brace c d inside :: rest) = some (before, inside, rest) →
      before = lead ++ (heritage before ++ trail) →
      Rule (.classBody declares (front ++ (before ++ .group .brace c d inside :: rest)))
        [⟨flattenAll (front ++ lead), 1, false, .expression .nothing (heritage before), parent, []⟩,
          ⟨flattenAll trail ++ [c], 0, true, .expression .nothing inside, members, []⟩]
        [.scope .block ((if declares then bindName name else []) ++ parent)
          ((if declares then [] else bindName name) ++ members)] rest
  | exportNames {trees after} :
      startsWith (fun t => t.isPunct "*" || isGroup .brace t) trees = true →
      clauseEnd false true trees = some after →
      Rule (.exported trees) [] [] (skipSemicolon (skipAttributes after))
  | exportStatement {trees items after} :
      startsWith (fun t => t.isPunct "*" || isGroup .brace t) trees = false →
      behindWord? "default" trees = none →
      Rule (.exported trees) [⟨[], 0, false, .statement trees, items, after⟩] items after
  | exportFunction {word word' rest items after} :
      word.isIdent "default" = true → word'.isIdent "function" = true →
      Rule (.exported (word :: word' :: rest))
        [⟨flattenAll [word, word'], 0, false, .function true rest, items, after⟩] items after
  | exportAsync {word word' word'' rest items after} :
      word.isIdent "default" = true → word'.isIdent "async" = true →
      word''.isIdent "function" = true →
      Rule (.exported (word :: word' :: word'' :: rest))
        [⟨flattenAll [word, word', word''], 0, false, .function true rest, items, after⟩] items after
  | exportClass {word word' rest items after} :
      word.isIdent "default" = true → word'.isIdent "class" = true →
      Rule (.exported (word :: word' :: rest))
        [⟨flattenAll [word, word'], 0, false, .classBody true rest, items, after⟩] items after
  | exportValue {word value items} :
      word.isIdent "default" = true → behindWord? "function" value = none →
      behindWords? "async" "function" value = none → behindWord? "class" value = none →
      Rule (.exported (word :: value))
        [⟨word.flatten, 0, false, .expression .nothing (takeExpression none value).1, items, []⟩]
        items (skipSemicolon (takeExpression none value).2)
  | expressionNil {before} : Rule (.expression before []) [] [] []
  | method {before a b parameters c d inside rest defaults inner items} :
      Rule (.expression before (.group .paren a b parameters :: .group .brace c d inside :: rest))
        [⟨[a], 1, true, .expression .nothing parameters, defaults, []⟩, ⟨[b, c], 0, true, .body inside, inner, []⟩,
          ⟨[d], 0, false, .expression .other rest, items, []⟩]
        (.scope .function [] ((parameterNames parameters).map .bind ++ defaults ++ inner) :: items) []
  | group {before delimiter a b inside rest inner items} :
      (delimiter = .paren → startsWith (isGroup .brace) rest = false) →
      Rule (.expression before (.group delimiter a b inside :: rest))
        [⟨[a], 0, false, .expression .nothing inside, inner, []⟩,
          ⟨[b], 0, false, .expression (.of (.group delimiter a b inside)) rest, items, []⟩]
        (inner ++ items) []
  | functionInside {before token rest f after items} :
      Inner.of before token rest = .function →
      Rule (.expression before (.leaf token :: rest))
        [⟨[token], 0, false, .function false rest, f, after⟩, ⟨[], 0, false, .expression .other after, items, []⟩]
        (f ++ items) []
  | classInside {before token rest c after items} :
      Inner.of before token rest = .classBody →
      Rule (.expression before (.leaf token :: rest))
        [⟨[token], 0, false, .classBody false rest, c, after⟩, ⟨[], 0, false, .expression .other after, items, []⟩]
        (c ++ items) []
  | staticBlock {before token a b inside rest inner items} :
      Inner.of before token (.group .brace a b inside :: rest) = .staticBlock →
      Rule (.expression before (.leaf token :: .group .brace a b inside :: rest))
        [⟨[token, a], 1, true, .body inside, inner, []⟩, ⟨[b], 0, false, .expression .other rest, items, []⟩]
        (.scope .function [] inner :: items) []
  | arrowInside {before token rest f after items} :
      Inner.of before token rest = .arrow →
      Rule (.expression before (.leaf token :: rest))
        [⟨[token], 0, false, .arrow before rest, f, after⟩, ⟨[], 0, false, .expression .other after, items, []⟩]
        (f ++ items) []
  | plain {before token rest items} :
      Inner.of before token rest = .plain →
      Rule (.expression before (.leaf token :: rest))
        [⟨[token], 0, false, .expression (.of (.leaf token)) rest, items, []⟩] items []
  | arrowBlock {before names a b inside rest inner} :
      before.arrowNames = some names →
      Rule (.arrow before (.group .brace a b inside :: rest)) [⟨[a], 1, true, .body inside, inner, []⟩]
        [.scope .function [] (names.map .bind ++ inner)] rest
  | arrowValue {before names tree rest inner} :
      before.arrowNames = some names → isGroup .brace tree = false →
      Rule (.arrow before (tree :: rest))
        [⟨[], 1, true, .expression .nothing (takeArrowBody (tree :: rest)).1, inner, []⟩]
        [.scope .function [] (names.map .bind ++ inner)] (takeArrowBody (tree :: rest)).2

/-! ## The rules are those of derivations -/

variable {job : Job} {parts : List Part} {items : List Item} {rest : List Tree}

/-- Some parts are read. -/
def AllRead (parts : List Part) : Prop :=
  ∀ p ∈ parts, Reads p.job p.items p.rest

/-- A word is not another one. -/
theorem behindWord?_other {tree : Tree} {word other : String} (h : tree.isIdent word = true)
    (hne : word ≠ other) (rest : List Tree) : behindWord? other (tree :: rest) = none := by
  simp [behindWord?, isIdent, of_decide_eq_true h, hne]

/-- A word does not start a list of exported names. -/
theorem starts_no_clause {tree : Tree} {word : String} (h : tree.isIdent word = true)
    (rest : List Tree) :
    startsWith (fun t => t.isPunct "*" || isGroup .brace t) (tree :: rest) = false := by
  obtain ⟨token, rfl, hk, -⟩ := ident?_eq_some_iff.mp (of_decide_eq_true h)
  simp [startsWith, isPunct, Token.isPunct, hk, isGroup, inside?]

/-- A job is read if its parts are. -/
theorem Rule.reads (h : Rule job parts items rest) (hp : AllRead parts) : Reads job items rest := by
  cases h <;> simp only [AllRead, List.forall_mem_cons, List.not_mem_nil, false_imp_iff, implies_true,
    and_true] at hp
  case bodyNil => exact .bodyNil
  case bodyCons => exact .bodyCons hp.1 hp.2
  case empty hf => exact .empty hf
  case block hf => exact .block hf hp
  case ifElse hf hw => exact .ifElse hf hp.1 hp.2.1 (behindWord?_cons hw) hp.2.2
  case ifOnly hf hw => exact .ifOnly hf hp.1 hp.2 hw
  case whileLoop hf => exact .whileLoop hf hp.1 hp.2
  case doWhile hf hw => exact .doWhile hf hp.1 (behindWord?_cons hw) hp.2
  case forLoop hf hs => exact .forLoop hf hs hp.1 hp.2
  case tryCatch hf hw => exact .tryCatch hf hp.1 (behindWord?_cons hw) hp.2.1 hp.2.2
  case tryOnly hf hw => exact .tryOnly hf hp.1 hw hp.2
  case switchCases hf => exact .switchCases hf hp.1 hp.2
  case functionDeclaration hf => exact .functionDeclaration hf hp
  case asyncFunction hf => exact .asyncFunction hf hp
  case classDeclaration hf => exact .classDeclaration hf hp
  case declaration hf => exact .declaration hf hp
  case leave hf hn => exact .leave hf hn hp
  case leaveBare hf hn => exact .leaveBare hf hn
  case jump hf => exact .jump hf
  case debugger hf => exact .debugger hf
  case importClause hf he => exact .importClause hf he
  case exportClause hf => exact .exportClause hf hp
  case labelled hf => exact .labelled hf hp
  case expressionStatement hf => exact .expressionStatement hf hp
  case blockHere => exact .blockHere hp
  case handlerNames => exact .handlerNames hp
  case handler => exact .handler hp
  case cleanup hw => exact .cleanup (behindWord?_cons hw) hp
  case cleanupNone hw => exact .cleanupNone hw
  case switch => exact .switch hp
  case casesNil => exact .casesNil
  case casesTest hc ht _ => exact .casesTest hc ht hp.1 hp.2
  case casesDefault hc hd hcolon =>
    exact .casesDefault hc (by simp [hd, startsWith, hcolon]) hp
  case casesStatement hc hd => exact .casesStatement hc hd hp.1 hp.2
  case function hn => exact .function hn hp.1 hp.2
  case classBody hb hc hcut =>
    have h := fun declares => @Reads.classBody declares _ _ _ _ _ _
      ((congrArg (cutAtBrace ∘ Prod.snd) hc).trans hcut) hp.1 hp.2
    simp only [hc] at h
    exact h _
  case exportNames hs he => exact .exportNames hs he
  case exportStatement hs hd => exact .exportStatement hs hd hp
  case exportFunction hd hf =>
    exact .exportFunction (starts_no_clause hd _) (behindWord?_cons hd) (behindWord?_cons hf) hp
  case exportAsync hd ha hf =>
    exact .exportAsync (starts_no_clause hd _) (behindWord?_cons hd) (behindWord?_other ha (by decide) _)
      (by rw [behindWords?, behindWord?_cons ha]; exact behindWord?_cons hf) hp
  case exportClass hd hc =>
    exact .exportClass (starts_no_clause hd _) (behindWord?_cons hd) (behindWord?_other hc (by decide) _)
      (by rw [behindWords?, behindWord?_other hc (by decide)]; rfl) (behindWord?_cons hc) hp
  case exportValue hd hf ha hc =>
    exact .exportValue (starts_no_clause hd _) (behindWord?_cons hd) hf ha hc hp
  case expressionNil => exact .expressionNil
  case method => exact .method hp.1 hp.2.1 hp.2.2
  case group hm => exact .group hm hp.1 hp.2
  case functionInside hi => exact .functionInside hi hp.1 hp.2
  case classInside hi => exact .classInside hi hp.1 hp.2
  case staticBlock hi => exact .staticBlock hi hp.1 hp.2
  case arrowInside hi => exact .arrowInside hi hp.1 hp.2
  case plain hi => exact .plain hi hp
  case arrowBlock hn => exact .arrowBlock hn hp
  case arrowValue hn hb => exact .arrowValue hn hb hp

theorem heritage_cut (before : List Tree) : ∃ lead trail, before = lead ++ (heritage before ++ trail) := by
  unfold heritage
  cases h : behindWord? "extends" before with
  | none => exact ⟨before, [], by simp⟩
  | some rest =>
    obtain ⟨word, rfl, -⟩ := behindWord?_eq_some h
    exact ⟨[word], [], by simp⟩

section Lists

variable {α : Type} {P : α → Prop} {x y z : α}

theorem forall_mem_one (hx : P x) : ∀ a ∈ [x], P a :=
  List.forall_mem_singleton.mpr hx

theorem forall_mem_pair (hx : P x) (hy : P y) : ∀ a ∈ [x, y], P a :=
  List.forall_mem_cons.mpr ⟨hx, forall_mem_one hy⟩

theorem forall_mem_triple (hx : P x) (hy : P y) (hz : P z) : ∀ a ∈ [x, y, z], P a :=
  List.forall_mem_cons.mpr ⟨hx, forall_mem_pair hy hz⟩

end Lists

/-- **An argument about everything that is read** goes rule by rule. -/
theorem Reads.induct {motive : Job → List Item → List Tree → Prop}
    (step : ∀ {job parts items rest}, Rule job parts items rest → AllRead parts →
      (∀ p ∈ parts, motive p.job p.items p.rest) → motive job items rest)
    (h : Reads job items rest) : motive job items rest := by
  have one : ∀ {job parts items rest}, Rule job parts items rest →
      (∀ p ∈ parts, Reads p.job p.items p.rest ∧ motive p.job p.items p.rest) → motive job items rest :=
    fun hr hp => step hr (fun p h => (hp p h).1) fun p h => (hp p h).2
  clear step
  induction h with
  | bodyNil => exact one .bodyNil nofun
  | bodyCons h₁ h₂ ih₁ ih₂ => exact one .bodyCons (forall_mem_pair ⟨h₁, ih₁⟩ ⟨h₂, ih₂⟩)
  | empty hf => exact one (.empty hf) nofun
  | block hf h₁ ih₁ => exact one (.block hf) (forall_mem_one ⟨h₁, ih₁⟩)
  | ifElse hf h₁ h₂ hw h₃ ih₁ ih₂ ih₃ =>
    obtain ⟨word, rfl, hword⟩ := behindWord?_eq_some hw
    exact one (.ifElse hf hword) (forall_mem_triple ⟨h₁, ih₁⟩ ⟨h₂, ih₂⟩ ⟨h₃, ih₃⟩)
  | ifOnly hf h₁ h₂ hw ih₁ ih₂ => exact one (.ifOnly hf hw) (forall_mem_pair ⟨h₁, ih₁⟩ ⟨h₂, ih₂⟩)
  | whileLoop hf h₁ h₂ ih₁ ih₂ => exact one (.whileLoop hf) (forall_mem_pair ⟨h₁, ih₁⟩ ⟨h₂, ih₂⟩)
  | doWhile hf h₁ hw h₂ ih₁ ih₂ =>
    obtain ⟨word, rfl, hword⟩ := behindWord?_eq_some hw
    exact one (.doWhile hf hword) (forall_mem_pair ⟨h₁, ih₁⟩ ⟨h₂, ih₂⟩)
  | @forLoop tree rest a b head after test inner last hf hs h₁ h₂ ih₁ ih₂ =>
    obtain ⟨await, rfl⟩ : ∃ await, rest = await ++ .group .paren a b head :: after := by
      unfold skipWord at hs
      cases hw : behindWord? "await" rest with
      | none => exact ⟨[], by simpa [hw] using hs⟩
      | some more =>
        obtain ⟨word, rfl, -⟩ := behindWord?_eq_some hw
        exact ⟨[word], by simpa [hw] using hs⟩
    exact one (.forLoop hf hs) (forall_mem_pair ⟨h₁, ih₁⟩ ⟨h₂, ih₂⟩)
  | tryCatch hf h₁ hw h₂ h₃ ih₁ ih₂ ih₃ =>
    obtain ⟨word, rfl, hword⟩ := behindWord?_eq_some hw
    exact one (.tryCatch hf hword) (forall_mem_triple ⟨h₁, ih₁⟩ ⟨h₂, ih₂⟩ ⟨h₃, ih₃⟩)
  | tryOnly hf h₁ hw h₂ ih₁ ih₂ => exact one (.tryOnly hf hw) (forall_mem_pair ⟨h₁, ih₁⟩ ⟨h₂, ih₂⟩)
  | switchCases hf h₁ h₂ ih₁ ih₂ => exact one (.switchCases hf) (forall_mem_pair ⟨h₁, ih₁⟩ ⟨h₂, ih₂⟩)
  | functionDeclaration hf h₁ ih₁ => exact one (.functionDeclaration hf) (forall_mem_one ⟨h₁, ih₁⟩)
  | @asyncFunction tree rest _ _ hf h₁ ih₁ =>
    have hstart := (form_rest hf).1 rfl
    cases rest with
    | nil => cases hstart
    | cons word rest => exact one (.asyncFunction hf) (forall_mem_one ⟨h₁, ih₁⟩)
  | classDeclaration hf h₁ ih₁ => exact one (.classDeclaration hf) (forall_mem_one ⟨h₁, ih₁⟩)
  | declaration hf h₁ ih₁ => exact one (.declaration hf) (forall_mem_one ⟨h₁, ih₁⟩)
  | leave hf hn h₁ ih₁ => exact one (.leave hf hn) (forall_mem_one ⟨h₁, ih₁⟩)
  | leaveBare hf hn => exact one (.leaveBare hf hn) nofun
  | jump hf => exact one (.jump hf) nofun
  | debugger hf => exact one (.debugger hf) nofun
  | importClause hf he => exact one (.importClause hf he) nofun
  | exportClause hf h₁ ih₁ => exact one (.exportClause hf) (forall_mem_one ⟨h₁, ih₁⟩)
  | @labelled tree rest _ _ hf h₁ ih₁ =>
    have hstart := (form_rest hf).2.1 rfl
    cases rest with
    | nil => cases hstart
    | cons colon rest => exact one (.labelled hf) (forall_mem_one ⟨h₁, ih₁⟩)
  | expressionStatement hf h₁ ih₁ => exact one (.expressionStatement hf) (forall_mem_one ⟨h₁, ih₁⟩)
  | blockHere h₁ ih₁ => exact one .blockHere (forall_mem_one ⟨h₁, ih₁⟩)
  | handlerNames h₁ ih₁ => exact one .handlerNames (forall_mem_one ⟨h₁, ih₁⟩)
  | handler h₁ ih₁ => exact one .handler (forall_mem_one ⟨h₁, ih₁⟩)
  | cleanup hw h₁ ih₁ =>
    obtain ⟨word, rfl, hword⟩ := behindWord?_eq_some hw
    exact one (.cleanup hword) (forall_mem_one ⟨h₁, ih₁⟩)
  | cleanupNone hw => exact one (.cleanupNone hw) nofun
  | switch h₁ ih₁ => exact one .switch (forall_mem_one ⟨h₁, ih₁⟩)
  | casesNil => exact one .casesNil nofun
  | casesTest hc ht h₁ h₂ ih₁ ih₂ =>
    obtain ⟨colon, rfl, hcolon, -⟩ := takeCase_cut ht
    exact one (.casesTest hc ht hcolon) (forall_mem_pair ⟨h₁, ih₁⟩ ⟨h₂, ih₂⟩)
  | @casesDefault tree rest _ hc hd h₁ ih₁ =>
    obtain ⟨hword, hstart⟩ := Bool.and_eq_true_iff.mp hd
    cases rest with
    | nil => cases hstart
    | cons colon rest => exact one (.casesDefault hc hword hstart) (forall_mem_one ⟨h₁, ih₁⟩)
  | casesStatement hc hd h₁ h₂ ih₁ ih₂ => exact one (.casesStatement hc hd) (forall_mem_pair ⟨h₁, ih₁⟩ ⟨h₂, ih₂⟩)
  | @function _ trees _ _ _ _ _ _ _ _ _ _ hn h₁ h₂ ih₁ ih₂ =>
    obtain ⟨front, htrees, -⟩ := functionName_cut trees
    rw [hn] at htrees
    subst htrees
    exact one (.function hn) (forall_mem_pair ⟨h₁, ih₁⟩ ⟨h₂, ih₂⟩)
  | @classBody _ trees before inside rest _ _ hcut h₁ h₂ ih₁ ih₂ =>
    obtain ⟨front, htrees, -⟩ := className_cut trees
    obtain ⟨c, d, heq, -⟩ := cutAtBrace_cut hcut
    obtain ⟨lead, trail, hb⟩ := heritage_cut before
    rw [heq] at htrees hcut
    have hname : className (front ++ (before ++ .group .brace c d inside :: rest)) =
        ((className trees).1, before ++ .group .brace c d inside :: rest) := by
      rw [← htrees, ← heq]
    rw [htrees]
    rw [htrees] at hname
    exact one (.classBody hname hcut hb) (forall_mem_pair ⟨h₁, ih₁⟩ ⟨h₂, ih₂⟩)
  | exportNames hs he => exact one (.exportNames hs he) nofun
  | exportStatement hs hd h₁ ih₁ => exact one (.exportStatement hs hd) (forall_mem_one ⟨h₁, ih₁⟩)
  | exportFunction hs hd hf h₁ ih₁ =>
    obtain ⟨word, rfl, hword⟩ := behindWord?_eq_some hd
    obtain ⟨word', rfl, hword'⟩ := behindWord?_eq_some hf
    exact one (.exportFunction hword hword') (forall_mem_one ⟨h₁, ih₁⟩)
  | exportAsync hs hd hf ha h₁ ih₁ =>
    obtain ⟨word, rfl, hword⟩ := behindWord?_eq_some hd
    obtain ⟨middle, hasync, hfunction⟩ := Option.bind_eq_some_iff.mp ha
    obtain ⟨word', rfl, hword'⟩ := behindWord?_eq_some hasync
    obtain ⟨word'', rfl, hword''⟩ := behindWord?_eq_some hfunction
    exact one (.exportAsync hword hword' hword'') (forall_mem_one ⟨h₁, ih₁⟩)
  | exportClass hs hd hf ha hc h₁ ih₁ =>
    obtain ⟨word, rfl, hword⟩ := behindWord?_eq_some hd
    obtain ⟨word', rfl, hword'⟩ := behindWord?_eq_some hc
    exact one (.exportClass hword hword') (forall_mem_one ⟨h₁, ih₁⟩)
  | exportValue hs hd hf ha hc h₁ ih₁ =>
    obtain ⟨word, rfl, hword⟩ := behindWord?_eq_some hd
    exact one (.exportValue hword hf ha hc) (forall_mem_one ⟨h₁, ih₁⟩)
  | expressionNil => exact one .expressionNil nofun
  | method h₁ h₂ h₃ ih₁ ih₂ ih₃ => exact one .method (forall_mem_triple ⟨h₁, ih₁⟩ ⟨h₂, ih₂⟩ ⟨h₃, ih₃⟩)
  | group hm h₁ h₂ ih₁ ih₂ => exact one (.group hm) (forall_mem_pair ⟨h₁, ih₁⟩ ⟨h₂, ih₂⟩)
  | functionInside hi h₁ h₂ ih₁ ih₂ => exact one (.functionInside hi) (forall_mem_pair ⟨h₁, ih₁⟩ ⟨h₂, ih₂⟩)
  | classInside hi h₁ h₂ ih₁ ih₂ => exact one (.classInside hi) (forall_mem_pair ⟨h₁, ih₁⟩ ⟨h₂, ih₂⟩)
  | staticBlock hi h₁ h₂ ih₁ ih₂ => exact one (.staticBlock hi) (forall_mem_pair ⟨h₁, ih₁⟩ ⟨h₂, ih₂⟩)
  | arrowInside hi h₁ h₂ ih₁ ih₂ => exact one (.arrowInside hi) (forall_mem_pair ⟨h₁, ih₁⟩ ⟨h₂, ih₂⟩)
  | plain hi h₁ ih₁ => exact one (.plain hi) (forall_mem_one ⟨h₁, ih₁⟩)
  | arrowBlock hn h₁ ih₁ => exact one (.arrowBlock hn) (forall_mem_one ⟨h₁, ih₁⟩)
  | arrowValue hn hb h₁ ih₁ => exact one (.arrowValue hn hb) (forall_mem_one ⟨h₁, ih₁⟩)

/-- What is read is read by a rule. -/
theorem Reads.rule (h : Reads job items rest) : ∃ parts, Rule job parts items rest ∧ AllRead parts :=
  Reads.induct (motive := fun job items rest => ∃ parts, Rule job parts items rest ∧ AllRead parts)
    (fun hrule hparts _ => ⟨_, hrule, hparts⟩) h

/-! ## What is left -/

theorem suffix_skipSemicolon (trees : List Tree) : skipSemicolon trees <:+ trees := by
  obtain ⟨semicolon, h, -⟩ := skipSemicolon_cut trees
  exact ⟨semicolon, h.symm⟩

theorem suffix_skipAttributes (trees : List Tree) : skipAttributes trees <:+ trees := by
  obtain ⟨attributes, h, -⟩ := skipAttributes_cut trees
  exact ⟨attributes, h.symm⟩

theorem suffix_takeExpression (before : Option Tree) (trees : List Tree) :
    (takeExpression before trees).2 <:+ trees :=
  ⟨_, takeExpression_append before trees⟩

theorem suffix_clause {required first : Bool} {trees after : List Tree}
    (h : clauseEnd required first trees = some after) :
    skipSemicolon (skipAttributes after) <:+ trees := by
  obtain ⟨front, rfl, -⟩ := clauseEnd_cut h
  exact ((suffix_skipSemicolon _).trans (suffix_skipAttributes _)).trans (List.suffix_append ..)

theorem suffix_value (before : Option Tree) (trees : List Tree) :
    skipSemicolon (takeExpression before trees).2 <:+ trees :=
  (suffix_skipSemicolon _).trans (suffix_takeExpression _ _)

theorem suffix_label (skip : Bool) (trees : List Tree) :
    skipSemicolon (if skip then trees.tail else trees) <:+ trees := by
  refine (suffix_skipSemicolon _).trans ?_
  split
  · exact List.tail_suffix _
  · exact List.suffix_refl _

/-- The tokens at the end of some trees are tokens of the trees. -/
theorem subset_of_suffix {x trees : List Tree} (h : x <:+ trees) : flattenAll x ⊆ flattenAll trees := by
  obtain ⟨y, rfl⟩ := h
  rw [flattenAll_append]
  exact List.subset_append_right _ _

/-- What a job leaves is the end of its trees. -/
theorem Rule.suffix (h : Rule job parts items rest) (hp : ∀ p ∈ parts, p.rest <:+ p.job.trees) :
    rest <:+ job.trees := by
  have cons : ∀ {x y : List Tree} (tree : Tree), x <:+ y → x <:+ tree :: y :=
    fun tree h => h.trans (List.suffix_cons tree _)
  cases h <;> simp only [List.forall_mem_cons, List.not_mem_nil, false_imp_iff, implies_true,
    and_true, Job.trees] at hp ⊢
  case bodyNil | bodyCons | casesNil | casesTest | casesDefault | casesStatement | expressionNil
      | method | group | functionInside | classInside | staticBlock | arrowInside | plain =>
    exact List.nil_suffix
  case empty | blockHere | switch | arrowBlock => exact List.suffix_cons _ _
  case cleanupNone => exact List.suffix_refl _
  case block | handler | exportStatement => exact hp
  case ifElse => exact cons _ (cons _ (hp.2.2.trans ((List.suffix_cons _ _).trans hp.2.1)))
  case ifOnly | whileLoop | switchCases => exact cons _ (cons _ hp.2)
  case doWhile =>
    exact cons _ ((suffix_skipSemicolon _).trans ((List.suffix_append [_, _] _).trans hp.1))
  case forLoop => exact cons _ ((cons _ hp.2).trans (List.suffix_append ..))
  case tryCatch =>
    exact cons _ (hp.2.2.trans (hp.2.1.trans ((List.suffix_cons _ _).trans hp.1)))
  case tryOnly => exact cons _ (hp.2.trans hp.1)
  case functionDeclaration | classDeclaration | exportClause | handlerNames | cleanup => exact cons _ hp
  case asyncFunction | labelled | exportFunction | exportClass => exact cons _ (cons _ hp)
  case exportAsync => exact cons _ (cons _ (cons _ hp))
  case declaration | leave | expressionStatement | exportValue => exact cons _ (suffix_value _ _)
  case leaveBare | debugger => exact cons _ (suffix_skipSemicolon _)
  case jump => exact cons _ (suffix_label _ _)
  case importClause he => exact cons _ (suffix_clause he)
  case exportNames he => exact suffix_clause he
  case function => exact (List.suffix_append [_, _] _).trans (List.suffix_append ..)
  case classBody =>
    exact (List.suffix_cons _ _).trans ((List.suffix_append ..).trans (List.suffix_append ..))
  case arrowValue => exact List.dropWhile_suffix _

theorem Reads.suffix (h : Reads job items rest) : rest <:+ job.trees :=
  Reads.induct (motive := fun job _ rest => rest <:+ job.trees) (fun hr _ hp => hr.suffix hp) h

/-! ## Places -/

/-- The tokens that are read for a part. -/
def Part.read (p : Part) : List Token :=
  flattenAll (p.job.trees.take (p.job.trees.length - p.rest.length))

section Read

variable {gap : List Token} {opens : Nat} {inside : Bool} {x : List Tree}

theorem Part.read_eq (h : x ++ rest = job.trees) :
    Part.read ⟨gap, opens, inside, job, items, rest⟩ = flattenAll x := by
  rw [read, ← h, List.length_append, Nat.add_sub_cancel, List.take_left' rfl]

@[simp]
theorem Part.read_nil : Part.read ⟨gap, opens, inside, job, items, []⟩ = flattenAll job.trees :=
  read_eq (List.append_nil _)

end Read

/-- A job in its place: the tokens before its trees, and the number of scopes that are open by then. -/
structure Spot where
  /-- The tokens before it. -/
  front : List Token
  /-- The number of scopes that have been opened before it. -/
  scopes : Nat
  /-- The job. -/
  job : Job

/-- The places of parts that follow each other from a place on. -/
def spots (front : List Token) (scopes : Nat) : List Part → List Spot
  | [] => []
  | p :: parts => ⟨front ++ p.gap, scopes + p.opens, p.job⟩ ::
      spots (front ++ p.gap ++ p.read) (scopes + p.opens + Item.scopesAll p.items) parts

/-- The place where the walk over a program starts: nothing is before it, and the module is open. -/
def Spot.top (trees : List Tree) : Spot :=
  ⟨[], 1, .body trees⟩

/-- Whether a place is that of a part of what is read at another one. -/
def Leads (s t : Spot) : Prop :=
  ∃ parts items rest, Rule s.job parts items rest ∧ AllRead parts ∧ t ∈ spots s.front s.scopes parts

/-- Whether the walk over what is read at a place comes to another place. -/
def Visits : Spot → Spot → Prop :=
  Relation.ReflTransGen Leads

theorem spots_eq_map (front : List Token) (scopes : Nat) (parts : List Part) :
    spots front scopes parts =
      (spots [] 0 parts).map fun s => ⟨front ++ s.front, scopes + s.scopes, s.job⟩ := by
  have shift : ∀ a n, spots (front ++ a) (scopes + n) parts =
      (spots a n parts).map fun s => ⟨front ++ s.front, scopes + s.scopes, s.job⟩ := by
    induction parts with
    | nil => exact fun _ _ => rfl
    | cons p parts ih =>
      intro a n
      simp [spots, ← ih, Nat.add_assoc]
  simpa using shift [] 0

/-- The trees of a part stand together behind the tokens before it. -/
theorem Rule.stands (h : Rule job parts items rest) (hp : AllRead parts) :
    ∀ s ∈ spots [] 0 parts, Stands job.trees s.front s.job.trees := by
  have hsuffix := fun p hmem => (hp p hmem).suffix
  cases h <;> simp only [spots, List.forall_mem_cons, List.not_mem_nil, false_imp_iff, implies_true,
    and_true, Job.trees, List.nil_append, Part.read_nil] at hsuffix ⊢
  case bodyCons | casesStatement =>
    obtain ⟨⟨x, hx⟩, -⟩ := hsuffix
    rw [Part.read_eq hx, ← hx]
    exact ⟨.here, .of_eq (.append .here) (by simp)⟩
  case block | exportStatement | handler => exact .here
  case ifElse =>
    obtain ⟨-, ⟨x, hx⟩, -⟩ := hsuffix
    rw [Part.read_eq hx, ← hx]
    exact ⟨.cons .inside, .of_eq (.cons (.cons .here)) (by simp [Tree.flatten]),
      .of_eq (.cons (.cons (.append (.cons .here)))) (by simp [Tree.flatten])⟩
  case ifOnly | whileLoop | switchCases =>
    exact ⟨.cons .inside, .of_eq (.cons (.cons .here)) (by simp [Tree.flatten])⟩
  case doWhile =>
    obtain ⟨⟨x, hx⟩, -⟩ := hsuffix
    rw [Part.read_eq hx, ← hx]
    exact ⟨.of_eq (.cons .here) (by simp), .of_eq (.cons (.append (.cons .inside))) (by simp)⟩
  case forLoop =>
    exact ⟨.of_eq (.cons (.append .inside)) (by simp [flattenAll]),
      .of_eq (.cons (.append (.cons .here))) (by simp [flattenAll, Tree.flatten])⟩
  case tryCatch =>
    obtain ⟨⟨x, hx⟩, ⟨y, hy⟩, -⟩ := hsuffix
    rw [Part.read_eq hx, Part.read_eq hy, ← hx, ← hy]
    exact ⟨.of_eq (.cons .here) (by simp), .of_eq (.cons (.append (.cons .here))) (by simp),
      .of_eq (.cons (.append (.cons (.append .here)))) (by simp)⟩
  case tryOnly =>
    obtain ⟨⟨x, hx⟩, -⟩ := hsuffix
    rw [Part.read_eq hx, ← hx]
    exact ⟨.of_eq (.cons .here) (by simp), .of_eq (.cons (.append .here)) (by simp)⟩
  case functionDeclaration | classDeclaration | exportClause | cleanup | handlerNames =>
    exact .of_eq (.cons .here) (by simp [flattenAll])
  case asyncFunction | labelled | exportFunction | exportClass | casesDefault =>
    exact .of_eq (.cons (.cons .here)) (by simp [flattenAll])
  case exportAsync => exact .of_eq (.cons (.cons (.cons .here))) (by simp [flattenAll])
  case declaration | leave | exportValue => exact .of_eq (.cons (.before (takeExpression_append _ _))) (by simp)
  case expressionStatement => exact .before (congrArg (_ :: ·) (takeExpression_append _ _))
  case blockHere | switch | arrowBlock => exact .inside
  case casesTest =>
    exact ⟨.of_eq (.cons (.before rfl)) (by simp), .of_eq (.cons (.append (.cons .here))) (by simp)⟩
  case function =>
    exact ⟨.append .inside, .of_eq (.append (.cons .inside)) (by simp [Tree.flatten])⟩
  case classBody _ front lead before trail _ _ _ _ _ _ hb _ _ =>
    have hlead : Stands before (flattenAll lead) (heritage before) := by
      have h : Stands (lead ++ (heritage before ++ trail)) _ _ := .append (.before rfl)
      rw [← hb] at h
      exact .of_eq h (by simp)
    have htokens : flattenAll before = flattenAll lead ++ (flattenAll (heritage before) ++ flattenAll trail) := by
      rw [← flattenAll_append, ← flattenAll_append, ← hb]
    exact ⟨.of_eq (.append hlead.extend) (by simp), .of_eq (.append (.append .inside)) (by simp [htokens])⟩
  case method =>
    exact ⟨.inside, .of_eq (.cons .inside) (by simp [Tree.flatten]),
      .of_eq (.cons (.cons .here)) (by simp [Tree.flatten])⟩
  case group => exact ⟨.inside, .of_eq (.cons .here) (by simp [Tree.flatten])⟩
  case functionInside | classInside | arrowInside =>
    obtain ⟨⟨x, hx⟩, -⟩ := hsuffix
    rw [Part.read_eq hx, ← hx]
    exact ⟨.of_eq (.cons .here) (by simp [Tree.flatten]),
      .of_eq (.cons (.append .here)) (by simp [Tree.flatten])⟩
  case staticBlock =>
    exact ⟨.cons .inside, .of_eq (.cons (.cons .here)) (by simp [Tree.flatten])⟩
  case plain => exact .of_eq (.cons .here) (by simp [Tree.flatten])
  case arrowValue => exact .before List.takeWhile_append_dropWhile

theorem Leads.stands {s t : Spot} (h : Leads s t) {trees : List Tree}
    (hs : Stands trees s.front s.job.trees) : Stands trees t.front t.job.trees := by
  obtain ⟨parts, items, rest, hrule, hparts, hmem⟩ := h
  rw [spots_eq_map] at hmem
  obtain ⟨u, hu, rfl⟩ := List.mem_map.mp hmem
  exact hs.trans (hrule.stands hparts u hu)

/-- **The trees of a job that is visited stand together**, behind the tokens before it. -/
theorem Visits.stands {s t : Spot} (h : Visits s t) {trees : List Tree}
    (hs : Stands trees s.front s.job.trees) : Stands trees t.front t.job.trees := by
  induction h with
  | refl => exact hs
  | tail _ h ih => exact h.stands ih

theorem job_mem_of_spots {front : List Token} {scopes : Nat} {s : Spot}
    (h : s ∈ spots front scopes parts) : ∃ p ∈ parts, s.job = p.job := by
  induction parts generalizing front scopes with
  | nil => cases h
  | cons p parts ih =>
    rcases List.mem_cons.mp h with rfl | h
    · exact ⟨p, List.mem_cons_self, rfl⟩
    · obtain ⟨q, hq, hjob⟩ := ih h
      exact ⟨q, List.mem_cons_of_mem _ hq, hjob⟩

/-- Each part has its place. -/
theorem exists_spot {p : Part} (h : p ∈ parts) (front : List Token) (scopes : Nat) :
    ∃ s ∈ spots front scopes parts, s.job = p.job := by
  induction parts generalizing front scopes with
  | nil => cases h
  | cons q parts ih =>
    rcases List.mem_cons.mp h with rfl | h
    · exact ⟨_, List.mem_cons_self, rfl⟩
    · obtain ⟨s, hs, hjob⟩ := ih h _ _
      exact ⟨s, List.mem_cons_of_mem _ hs, hjob⟩

theorem Leads.reads {s t : Spot} (h : Leads s t) : ∃ items rest, Reads t.job items rest := by
  obtain ⟨parts, items, rest, -, hparts, hmem⟩ := h
  obtain ⟨p, hp, hjob⟩ := job_mem_of_spots hmem
  exact ⟨p.items, p.rest, hjob ▸ hparts p hp⟩

/-- What is visited is read. -/
theorem Visits.reads {s t : Spot} (h : Visits s t) (hs : ∃ items rest, Reads s.job items rest) :
    ∃ items rest, Reads t.job items rest := by
  cases h with
  | refl => exact hs
  | tail _ h => exact h.reads

end Outline

end DeferredLog
