import DeferredLog.Program.Extent
import DeferredLog.Program.Pattern

/-!
# The outline of a program

An outline keeps what a program says about names and statements and drops the rest: the expression
statements with their trees, the names that are bound, and the scopes that hold both. `Outline.body`
reads it off the token trees, statement by statement.

A statement is recognised by its first trees (`Form.of`), a function, class or method inside an
expression by the leaf that announces it (`Inner.of`). Each reader returns the outline of what it
read together with the trees behind it, and a proof that these weigh less: that is why reading ends,
on any list of trees.
-/

namespace DeferredLog

open DeferredLog.Tree

/-- The kinds of scopes. -/
inductive ScopeKind where
  | module
  | function
  | block
  deriving DecidableEq, Repr

/-- A part of an outline. -/
inductive Item where
  /-- A name bound in the scope around the part. -/
  | bind (name : String)
  /-- A name bound in the nearest function or module around the part. -/
  | hoist (name : String)
  /-- An expression statement. -/
  | statement (trees : List Tree)
  /-- A scope of its own. What is `outside` belongs to the scope around it, but comes after the
  opening of this one and before what is `inside`. -/
  | scope (kind : ScopeKind) (outside inside : List Item)
  deriving Repr

namespace Outline

/-! ## Recognising statements -/

/-- The forms of statements, told by their first trees. -/
inductive Form where
  | empty
  | block
  | ifElse
  | whileLoop
  | doWhile
  | forLoop
  | tryCatch
  | switchCases
  | functionDeclaration
  | asyncFunction
  | classDeclaration
  | declaration (hoisted : Bool)
  /-- A `return` or `throw`. -/
  | leave
  /-- A `break` or `continue`. -/
  | jump
  | debugger
  | importClause
  | exportClause
  | labelled
  | expression
  deriving DecidableEq, Repr

/-- Whether a tree is a group with the given delimiter. -/
def isGroup (delimiter : Delimiter) (tree : Tree) : Bool :=
  (tree.inside? delimiter).isSome

/-- Whether the first of some trees has a property. -/
def startsWith (p : Tree → Bool) (trees : List Tree) : Bool :=
  (trees.head?.map p).getD false

/-- Whether a tree is a name that is not reserved. -/
def isFreeName (tree : Tree) : Bool :=
  (tree.ident?.map (!isReserved ·)).getD false

/-- The form of the statement that starts with a word, told by the word and the trees behind it. -/
def Form.ofWord (word : String) (rest : List Tree) : Form :=
  match word with
  | "if" => .ifElse
  | "while" | "with" => .whileLoop
  | "do" => .doWhile
  | "for" => .forLoop
  | "try" => .tryCatch
  | "switch" => .switchCases
  | "function" => .functionDeclaration
  | "class" => .classDeclaration
  | "const" => .declaration false
  | "var" => .declaration true
  | "return" | "throw" => .leave
  | "break" | "continue" => .jump
  | "debugger" => .debugger
  | "export" => .exportClause
  | "import" =>
    if startsWith (fun t => isGroup .paren t || t.isPunct ".") rest then .expression
    else .importClause
  | _ =>
    if word = "async" && startsWith (fun t => t.isIdent "function" && !t.newlineBefore) rest then
      .asyncFunction
    else if word = "let"
        && startsWith (fun t => isFreeName t || isGroup .bracket t || isGroup .brace t) rest then
      .declaration false
    else if !isReserved word && startsWith (isPunct ":") rest then .labelled
    else .expression

/-- The form of the statement that starts with a tree, told by it and the trees behind it. -/
def Form.of (tree : Tree) (rest : List Tree) : Form :=
  if tree.isPunct ";" then .empty
  else if isGroup .brace tree then .block
  else
    match tree.ident? with
    | some word => .ofWord word rest
    | none => .expression

/-! ## Recognising what is inside an expression -/

/-- What stands before a place in an expression. -/
inductive Before where
  | nothing
  | dot
  | name (text : String)
  /-- A group in parentheses, which can be the parameters of an arrow function. -/
  | parameters (trees : List Tree)
  | other
  deriving Repr

/-- What a tree is to the place behind it. -/
def Before.of : Tree → Before
  | .leaf token =>
    if Tree.isDot (.leaf token) then .dot
    else if token.kind = .ident then .name token.text
    else .other
  | .group delimiter _ _ inside => if delimiter = .paren then .parameters inside else .other

/-- Whether it is a dot. -/
def Before.isDot : Before → Bool
  | .dot => true
  | _ => false

/-- The parameters of an arrow function behind it; none at the start of an expression. -/
def Before.arrowNames : Before → Option (List String)
  | .nothing => none
  | .name text => some [text]
  | .parameters trees => some (parameterNames trees)
  | .dot | .other => some []

/-- What a leaf in an expression announces. -/
inductive Inner where
  | function
  | classBody
  | staticBlock
  | arrow
  | plain
  deriving DecidableEq, Repr

/-- What a leaf announces, told by what stands before and behind it. A word behind a dot or before a
colon names a property and announces nothing. -/
def Inner.of (before : Before) (token : Token) (rest : List Tree) : Inner :=
  if token.kind = .ident then
    if before.isDot || startsWith (isPunct ":") rest then .plain
    else if token.text = "function" then .function
    else if token.text = "class" && !startsWith (isGroup .paren) rest then .classBody
    else if token.text = "static" && startsWith (isGroup .brace) rest then .staticBlock
    else .plain
  else if token.isPunct "=>" then .arrow
  else .plain

/-! ## Heads of functions, classes and loops -/

/-- The name of a function, if it has one, and the trees behind it. -/
def functionName (trees : List Tree) : Option String × List Tree :=
  let named := match trees with
    | tree :: rest => if tree.isPunct "*" then rest else trees
    | [] => []
  match named with
  | tree :: rest =>
    match tree.ident? with
    | some name => (some name, rest)
    | none => (none, named)
  | [] => (none, [])

theorem weights_functionName_le (trees : List Tree) :
    weights (functionName trees).2 ≤ weights trees := by
  have drop_name : ∀ named : List Tree,
      weights (match named with
        | tree :: rest =>
          match tree.ident? with
          | some name => (some name, rest)
          | none => (none, named)
        | [] => (none, []) : Option String × List Tree).2 ≤ weights named := by
    intro named
    split
    · split <;> simp
    · simp
  refine Nat.le_trans (drop_name _) ?_
  split
  · split <;> simp
  · simp

/-- The name of a class, if it has one, and the trees behind it. -/
def className (trees : List Tree) : Option String × List Tree :=
  match trees with
  | tree :: rest =>
    match tree.ident? with
    | some name => if name = "extends" then (none, trees) else (some name, rest)
    | none => (none, trees)
  | [] => (none, [])

theorem weights_className_le (trees : List Tree) :
    weights (className trees).2 ≤ weights trees := by
  unfold className
  split
  · split
    · split <;> simp
    · simp
  · simp

/-- The trees of the expression that a class extends, between its name and its body. -/
def heritage (before : List Tree) : List Tree :=
  (behindWord? "extends" before).getD []

theorem weights_heritage_le (before : List Tree) : weights (heritage before) ≤ weights before := by
  unfold heritage
  cases h : behindWord? "extends" before with
  | none => simp
  | some rest => exact Nat.le_of_lt (weights_behindWord?_lt h)

/-- Whether a tree ends the declarators in the head of a loop. -/
def endsLoopNames (tree : Tree) : Bool :=
  tree.isPunct ";" || tree.isIdent "of" || tree.isIdent "in"

/-- The names that the head of a loop binds. -/
def loopNames (head : List Tree) : List Item :=
  match head with
  | [] => []
  | word :: rest =>
    let names := parameterNames (rest.takeWhile (!endsLoopNames ·))
    if word.isIdent "var" then names.map .hoist
    else if word.isIdent "let" || word.isIdent "const" then names.map .bind
    else []

/-- The binding of a name, if there is one. -/
def bindName (name : Option String) : List Item :=
  name.toList.map .bind

/-! ## Reading -/

/-- The fault of a part missing where the trees `here` start, at the end of the trees `whole`. -/
def missing (part : Missing) (here whole : List Tree) : Fault :=
  ⟨.expected part,
    match here with
    | tree :: _ => tree.start
    | [] => (whole.getLast?.map Tree.stop).getD 0⟩

/-- The outline of what was read from the front of trees of weight `bound`, and the trees behind
it. -/
structure Step (bound : Nat) where
  /-- The outline of what was read. -/
  items : List Item
  /-- The trees behind it. -/
  rest : List Tree
  /-- The trees behind it weigh less. -/
  lighter : weights rest < bound

section Weights

variable {bound : Nat} {trees rest : List Tree}

theorem weights_lt_cons (tree : Tree) (rest : List Tree) : weights rest < weights (tree :: rest) := by
  have := weight_pos tree
  simp only [weights_cons]
  omega

theorem lt_cons_of_le (tree : Tree) (h : bound ≤ weights rest) : bound < weights (tree :: rest) :=
  Nat.lt_of_le_of_lt h (weights_lt_cons tree rest)

theorem lt_cons (tree : Tree) (h : bound < weights rest) : bound < weights (tree :: rest) :=
  lt_cons_of_le tree (Nat.le_of_lt h)

theorem skipSemicolon_lt (h : weights trees < bound) : weights (skipSemicolon trees) < bound :=
  Nat.lt_of_le_of_lt (weights_skipSemicolon_le trees) h

theorem takeExpression_le (before : Option Tree) (trees : List Tree) :
    weights (takeExpression before trees).2 ≤ weights trees := by
  have := weights_takeExpression before trees
  omega

theorem weights_tail_if_le (skip : Bool) (trees : List Tree) :
    weights (if skip then trees.tail else trees) ≤ weights trees := by
  split
  · exact weights_tail_le trees
  · exact Nat.le_refl _

theorem weights_group_lt {delimiter : Delimiter} {opening closing : Token} {inside after : List Tree}
    (h : weights (.group delimiter opening closing inside :: after) ≤ bound) :
    weights inside + weights after < bound := by
  simp only [weights_cons, weight] at h
  omega

end Weights

/-- The end of an import or export clause. A specifier may be required. -/
def moduleClause (required : Bool) (trees whole : List Tree) :
    Except Fault (Step (weights trees + 1)) :=
  match h : clauseEnd required true trees with
  | none => .error (missing .moduleSpecifier trees whole)
  | some rest => .ok ⟨[], skipSemicolon (skipAttributes rest), by
      have := weights_clauseEnd_le h
      have := weights_skipAttributes_le rest
      have := weights_skipSemicolon_le (skipAttributes rest)
      omega⟩

mutual

/-- The outline of the statements of a body. -/
def body (trees : List Tree) : Except Fault (List Item) :=
  match trees with
  | [] => .ok []
  | tree :: rest => do
    let first ← statement tree rest
    have := first.lighter
    return first.items ++ (← body first.rest)
termination_by 3 * weights trees + 2

/-- The outline of a statement that must stand here, inside of the trees `whole`. -/
def required (trees whole : List Tree) : Except Fault (Step (weights trees)) :=
  match trees with
  | [] => .error (missing .statement [] whole)
  | tree :: rest => statement tree rest
termination_by 3 * weights trees + 2

/-- The outline of the statement that starts with `tree`. -/
def statement (tree : Tree) (rest : List Tree) : Except Fault (Step (weights (tree :: rest))) :=
  have := weight_pos tree
  match Form.of tree rest with
  | .empty => .ok ⟨[], rest, weights_lt_cons tree rest⟩
  | .block => do
    let block ← blockHere .statement (tree :: rest) (tree :: rest)
    return block
  | .ifElse =>
    match rest with
    | .group .paren _ _ head :: after => do
      let test ← expression .nothing head
      let yes ← required after (tree :: rest)
      have := yes.lighter
      match helse : behindWord? "else" yes.rest with
      | some otherwise =>
        have hlt := weights_behindWord?_lt helse
        let no ← required otherwise (tree :: rest)
        have := no.lighter
        return ⟨test ++ yes.items ++ no.items, no.rest,
          lt_cons tree (lt_cons _ (Nat.lt_trans (Nat.lt_trans no.lighter hlt) yes.lighter))⟩
      | none => return ⟨test ++ yes.items, yes.rest, lt_cons tree (lt_cons _ yes.lighter)⟩
    | here => .error (missing .ifHead here (tree :: rest))
  | .whileLoop =>
    match rest with
    | .group .paren _ _ head :: after => do
      let test ← expression .nothing head
      let inner ← required after (tree :: rest)
      have := inner.lighter
      return ⟨test ++ inner.items, inner.rest, lt_cons tree (lt_cons _ inner.lighter)⟩
    | here => .error (missing .whileHead here (tree :: rest))
  | .doWhile => do
    let inner ← required rest (tree :: rest)
    have := inner.lighter
    match hwhile : behindWord? "while" inner.rest with
    | none => .error (missing .doWhile inner.rest (tree :: rest))
    | some (.group .paren _ _ head :: after) =>
      have hlt := Nat.lt_trans (weights_behindWord?_lt hwhile) inner.lighter
      let test ← expression .nothing head
      return ⟨inner.items ++ test, skipSemicolon after,
        skipSemicolon_lt (lt_cons tree (Nat.lt_trans (weights_lt_cons _ after) hlt))⟩
    | some here => .error (missing .whileHead here (tree :: rest))
  | .forLoop =>
    match skipWord "await" rest, weights_skipWord_le "await" rest with
    | .group .paren _ _ head :: after, hle => do
      have hhead := weights_group_lt hle
      let test ← expression .nothing head
      let inner ← required after (tree :: rest)
      have := inner.lighter
      return ⟨[.scope .block [] (loopNames head ++ test ++ inner.items)], inner.rest,
        lt_cons tree (Nat.lt_trans inner.lighter (Nat.lt_of_le_of_lt (Nat.le_add_left ..) hhead))⟩
    | here, _ => .error (missing .forHead here (tree :: rest))
  | .tryCatch => do
    let tried ← blockHere .tryBlock rest (tree :: rest)
    have := tried.lighter
    match hcatch : behindWord? "catch" tried.rest with
    | some handler =>
      have hlt := weights_behindWord?_lt hcatch
      let caught ← catchClause handler (tree :: rest)
      have := caught.lighter
      let last ← finallyClause caught.rest (tree :: rest)
      have := last.lighter
      return ⟨tried.items ++ caught.items ++ last.items, last.rest,
        Nat.lt_of_lt_of_le last.lighter
          (Nat.lt_trans caught.lighter (lt_cons tree (Nat.lt_trans hlt tried.lighter)))⟩
    | none =>
      let last ← finallyClause tried.rest (tree :: rest)
      have := last.lighter
      return ⟨tried.items ++ last.items, last.rest,
        Nat.lt_of_lt_of_le last.lighter (lt_cons tree tried.lighter)⟩
  | .switchCases =>
    match rest with
    | .group .paren _ _ head :: after => do
      let test ← expression .nothing head
      let block ← switchBlock after (tree :: rest)
      have := block.lighter
      return ⟨test ++ block.items, block.rest, lt_cons tree (lt_cons _ block.lighter)⟩
    | here => .error (missing .switchHead here (tree :: rest))
  | .functionDeclaration => do
    let declared ← function true rest (tree :: rest)
    have := declared.lighter
    return ⟨declared.items, declared.rest, lt_cons tree declared.lighter⟩
  | .asyncFunction => do
    have := weights_tail_le rest
    let declared ← function true rest.tail (tree :: rest)
    have := declared.lighter
    return ⟨declared.items, declared.rest,
      lt_cons tree (Nat.lt_of_lt_of_le declared.lighter (weights_tail_le rest))⟩
  | .classDeclaration => do
    let declared ← classBody true rest (tree :: rest)
    have := declared.lighter
    return ⟨declared.items, declared.rest, lt_cons tree declared.lighter⟩
  | .declaration hoisted => do
    have := weights_takeExpression none rest
    let declarators := (takeExpression none rest).1
    let values ← expression .nothing declarators
    let names := (parameterNames declarators).map (if hoisted then .hoist else .bind)
    return ⟨names ++ values, skipSemicolon (takeExpression none rest).2,
      skipSemicolon_lt (lt_cons_of_le tree (takeExpression_le none rest))⟩
  | .leave => do
    if startsWith (!·.newlineBefore) rest then
      have := weights_takeExpression none rest
      let value ← expression .nothing (takeExpression none rest).1
      return ⟨value, skipSemicolon (takeExpression none rest).2,
        skipSemicolon_lt (lt_cons_of_le tree (takeExpression_le none rest))⟩
    else
      return ⟨[], skipSemicolon rest, skipSemicolon_lt (weights_lt_cons tree rest)⟩
  | .jump =>
    let labelled := startsWith (fun t => !t.newlineBefore && isFreeName t) rest
    .ok ⟨[], skipSemicolon (if labelled then rest.tail else rest),
      skipSemicolon_lt (lt_cons_of_le tree (weights_tail_if_le labelled rest))⟩
  | .debugger =>
    .ok ⟨[], skipSemicolon rest, skipSemicolon_lt (weights_lt_cons tree rest)⟩
  | .importClause => do
    let clause ← moduleClause true rest (tree :: rest)
    have := clause.lighter
    return ⟨clause.items, clause.rest, Nat.lt_of_lt_of_le clause.lighter (weights_lt_cons tree rest)⟩
  | .exportClause => do
    let exported ← exportClause rest (tree :: rest)
    have := exported.lighter
    return ⟨exported.items, exported.rest, Nat.lt_of_lt_of_le exported.lighter (weights_lt_cons tree rest)⟩
  | .labelled => do
    have := weights_tail_le rest
    let inner ← required rest.tail (tree :: rest)
    have := inner.lighter
    return ⟨inner.items, inner.rest,
      lt_cons tree (Nat.lt_of_lt_of_le inner.lighter (weights_tail_le rest))⟩
  | .expression => do
    have := weights_takeExpression (some tree) rest
    let trees := tree :: (takeExpression (some tree) rest).1
    let inner ← expression .nothing trees
    return ⟨.statement trees :: inner, skipSemicolon (takeExpression (some tree) rest).2,
      skipSemicolon_lt (lt_cons_of_le tree (takeExpression_le (some tree) rest))⟩
termination_by 3 * weights (tree :: rest) + 1
decreasing_by all_goals (simp only [weights_cons, weight] at *; omega)

/-- The outline of a block that must stand here. -/
def blockHere (part : Missing) (trees whole : List Tree) : Except Fault (Step (weights trees)) :=
  match trees with
  | .group .brace _ _ inside :: rest => do
    let inner ← body inside
    return ⟨[.scope .block [] inner], rest, by simp only [weights_cons, weight]; omega⟩
  | here => .error (missing part here whole)
termination_by 3 * weights trees

/-- The outline of what stands behind `catch`: parameters in a scope around that of the block. -/
def catchClause (trees whole : List Tree) : Except Fault (Step (weights trees)) :=
  match trees with
  | .group .paren _ _ parameters :: rest => do
    let block ← blockHere .catchBlock rest whole
    have := block.lighter
    let names := (parameterNames parameters).map .bind
    return ⟨[.scope .block [] (names ++ block.items)], block.rest, by
      simp only [weights_cons]; omega⟩
  | here => do
    let block ← blockHere .catchBlock here whole
    return ⟨[.scope .block [] block.items], block.rest, block.lighter⟩
termination_by 3 * weights trees + 1

/-- The outline of what stands behind `finally`, if that word stands here. -/
def finallyClause (trees whole : List Tree) : Except Fault (Step (weights trees + 1)) :=
  match h : behindWord? "finally" trees with
  | some rest => do
    have := weights_behindWord?_lt h
    let block ← blockHere .finallyBlock rest whole
    have := block.lighter
    return ⟨block.items, block.rest, by omega⟩
  | none => .ok ⟨[], trees, Nat.lt_succ_self _⟩
termination_by 3 * weights trees

/-- The outline of the block of a switch that must stand here. -/
def switchBlock (trees whole : List Tree) : Except Fault (Step (weights trees)) :=
  match trees with
  | .group .brace _ _ inside :: rest => do
    let inner ← cases inside
    return ⟨[.scope .block [] inner], rest, by simp only [weights_cons, weight]; omega⟩
  | here => .error (missing .switchBlock here whole)
termination_by 3 * weights trees

/-- The outline of the cases of a switch. -/
def cases (trees : List Tree) : Except Fault (List Item) :=
  match trees with
  | [] => .ok []
  | tree :: rest =>
    have := weight_pos tree
    if tree.isIdent "case" then
      match h : takeCase 0 rest with
      | none => .error ⟨.expected .caseColon, tree.start⟩
      | some (test, after) => do
        have := weights_takeCase_lt h
        let items ← expression .nothing test
        return items ++ (← cases after)
    else if tree.isIdent "default" && startsWith (isPunct ":") rest then
      have := weights_tail_le rest
      cases rest.tail
    else do
      let first ← statement tree rest
      have := first.lighter
      return first.items ++ (← cases first.rest)
termination_by 3 * weights trees + 2

/-- The outline of a function from behind the word `function`. A declaration binds its name around
the function, an expression inside it. -/
def function (declares : Bool) (trees whole : List Tree) :
    Except Fault (Step (weights trees)) :=
  match functionName trees, weights_functionName_le trees with
  | (name, .group .paren _ _ parameters :: .group .brace _ _ inside :: rest), hle => do
    have hparts : weights parameters + weights inside + weights rest < weights trees := by
      simp only [weights_cons, weight] at hle; omega
    let defaults ← expression .nothing parameters
    let inner ← body inside
    let names := (parameterNames parameters).map .bind
    return ⟨[.scope .function (if declares then bindName name else [])
      ((if declares then [] else bindName name) ++ names ++ defaults ++ inner)], rest, by omega⟩
  | (_, .group .paren _ _ _ :: here), _ => .error (missing .functionBody here whole)
  | (_, here), _ => .error (missing .functionParameters here whole)
termination_by 3 * weights trees

/-- The outline of a class from behind the word `class`. A declaration binds its name around the
class, an expression inside it. -/
def classBody (declares : Bool) (trees whole : List Tree) :
    Except Fault (Step (weights trees)) :=
  match hcut : cutAtBrace (className trees).2 with
  | none => .error (missing .classBody (className trees).2 whole)
  | some (before, inside, rest) => do
    have hparts := weights_cutAtBrace_lt hcut
    have hname := weights_className_le trees
    have hheritage := weights_heritage_le before
    let parent ← expression .nothing (heritage before)
    let members ← expression .nothing inside
    let name := bindName (className trees).1
    return ⟨[.scope .block ((if declares then name else []) ++ parent)
      ((if declares then [] else name) ++ members)], rest, by omega⟩
termination_by 3 * weights trees

/-- The outline of what stands behind `export`. -/
def exportClause (trees whole : List Tree) : Except Fault (Step (weights trees + 1)) :=
  if startsWith (fun t => t.isPunct "*" || isGroup .brace t) trees then
    moduleClause false trees whole
  else
    match hdefault : behindWord? "default" trees with
    | none => do
      let inner ← required trees whole
      return ⟨inner.items, inner.rest, Nat.lt_succ_of_lt inner.lighter⟩
    | some value =>
      have hvalue := weights_behindWord?_lt hdefault
      match hfunction : behindWord? "function" value with
      | some rest => do
        have := weights_behindWord?_lt hfunction
        let declared ← function true rest whole
        have := declared.lighter
        return ⟨declared.items, declared.rest, by omega⟩
      | none =>
        match hasync : behindWords? "async" "function" value with
        | some rest => do
          have := weights_behindWords?_lt hasync
          let declared ← function true rest whole
          have := declared.lighter
          return ⟨declared.items, declared.rest, by omega⟩
        | none =>
          match hclass : behindWord? "class" value with
          | some rest => do
            have := weights_behindWord?_lt hclass
            let declared ← classBody true rest whole
            have := declared.lighter
            return ⟨declared.items, declared.rest, by omega⟩
          | none => do
            have hcut := weights_takeExpression none value
            let items ← expression .nothing (takeExpression none value).1
            return ⟨items, skipSemicolon (takeExpression none value).2, by
              have := weights_skipSemicolon_le (takeExpression none value).2
              omega⟩
termination_by 3 * weights trees + 3

/-- The outline of what is nested in an expression: functions, methods, classes and their names. -/
def expression (before : Before) (trees : List Tree) : Except Fault (List Item) :=
  match trees with
  | [] => .ok []
  | .group .paren _ _ parameters :: .group .brace _ _ inside :: rest => do
    let defaults ← expression .nothing parameters
    let inner ← body inside
    let names := (parameterNames parameters).map .bind
    return .scope .function [] (names ++ defaults ++ inner) :: (← expression .other rest)
  | .group delimiter opening closing inside :: rest => do
    let inner ← expression .nothing inside
    return inner ++ (← expression (.of (.group delimiter opening closing inside)) rest)
  | .leaf token :: rest =>
    match Inner.of before token rest with
    | .function => do
      let f ← function false rest (.leaf token :: rest)
      have := f.lighter
      return f.items ++ (← expression .other f.rest)
    | .classBody => do
      let c ← classBody false rest (.leaf token :: rest)
      have := c.lighter
      return c.items ++ (← expression .other c.rest)
    | .staticBlock =>
      match rest with
      | .group .brace _ _ inside :: rest => do
        let inner ← body inside
        return .scope .function [] inner :: (← expression .other rest)
      | rest => expression .other rest
    | .arrow => do
      let a ← arrow before token rest
      have := a.lighter
      return a.items ++ (← expression .other a.rest)
    | .plain => expression (.of (.leaf token)) rest
termination_by 3 * weights trees

/-- The outline of an arrow function from behind its arrow. Its body is a block or an expression. -/
def arrow (before : Before) (token : Token) (trees : List Tree) :
    Except Fault (Step (weights trees + 1)) :=
  match before.arrowNames with
  | none => .error ⟨.expected .arrowParameters, token.start⟩
  | some names =>
    match trees with
    | .group .brace _ _ inside :: rest => do
      let inner ← body inside
      return ⟨[.scope .function [] (names.map .bind ++ inner)], rest, by
        simp only [weights_cons, weight]; omega⟩
    | [] => .error ⟨.expected .arrowBody, token.stop⟩
    | here => do
      have hcut := weights_takeArrowBody here
      let inner ← expression .nothing (takeArrowBody here).1
      return ⟨[.scope .function [] (names.map .bind ++ inner)], (takeArrowBody here).2, by omega⟩
termination_by 3 * weights trees + 1

end

end Outline

end DeferredLog
