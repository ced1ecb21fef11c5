import DeferredLog.Proofs.Tree.Paired
import DeferredLog.Token.Keyword

/-!
# A core language

Programs made of calls of members, blocks, declarations, functions, branches, loops and handlers: how
they are written as token trees, and which names are bound anew around each of their calls.

* `Core.Spells` relates a program to the trees it is written as. A statement that needs an end has a
  semicolon, the end of its body or a line break behind it.
* `Core.scopesAll` is lexical scoping: a block binds what its own statements declare, a function also its
  parameters and the variables declared with `var` anywhere in it.
-/

namespace DeferredLog

open DeferredLog.Tree

namespace Core

/-! ## Programs -/

/-- The words that declare a variable. -/
inductive Declarer where
  | letWord
  | constWord
  | varWord
  deriving DecidableEq, Repr

/-- How a word that declares a variable is written. -/
def Declarer.text : Declarer → String
  | .letWord => "let"
  | .constWord => "const"
  | .varWord => "var"

mutual

/-- An expression. -/
inductive Expr where
  | name (x : String)
  | number (text : String)
  /-- A call of a name, a member, or a member of a member at any depth. -/
  | call (head : String) (members : List String) (arguments : List Expr)
  | function (parameters : List String) (body : List Stmt)
  /-- An arrow function with a block. -/
  | arrow (parameters : List String) (body : List Stmt)

/-- A statement. -/
inductive Stmt where
  | call (head : String) (members : List String) (arguments : List Expr)
  | block (body : List Stmt)
  | declare (word : Declarer) (x : String) (value : Expr)
  | function (name : String) (parameters : List String) (body : List Stmt)
  | ifElse (test : Expr) (yes no : List Stmt)
  | whileLoop (test : Expr) (body : List Stmt)
  | forOf (word : Declarer) (x : String) (values : Expr) (body : List Stmt)
  | tryCatch (tried : List Stmt) (x : String) (caught : List Stmt)

end

/-! ## Lexical scoping -/

/-- The names that a statement declares in the block it is in. -/
def Stmt.declared : Stmt → List String
  | .declare word x _ => if word = .varWord then [] else [x]
  | .function name _ _ => [name]
  | _ => []

/-- The names that the statements of a block declare in it. -/
def declaredAll (body : List Stmt) : List String :=
  body.flatMap Stmt.declared

mutual

/-- The names declared with `var` in a statement, outside of functions in it. -/
def Stmt.vars : Stmt → List String
  | .call .. | .function .. => []
  | .block body => varsAll body
  | .declare word x _ => if word = .varWord then [x] else []
  | .ifElse _ yes no => varsAll yes ++ varsAll no
  | .whileLoop _ body => varsAll body
  | .forOf word x _ body => (if word = .varWord then [x] else []) ++ varsAll body
  | .tryCatch tried _ caught => varsAll tried ++ varsAll caught

/-- The names declared with `var` in some statements, outside of functions in them. -/
def varsAll : List Stmt → List String
  | [] => []
  | s :: body => s.vars ++ varsAll body

end

/-- The names bound in a function: its parameters and what is declared in its body. -/
def boundIn (parameters : List String) (body : List Stmt) : List String :=
  parameters ++ declaredAll body ++ varsAll body

mutual

/-- For each call statement inside an expression, the names bound around it, told those bound around
the expression. -/
def Expr.scopes (around : List String) : Expr → List (List String)
  | .name _ | .number _ => []
  | .call _ _ arguments => argumentScopes around arguments
  | .function parameters body | .arrow parameters body =>
    scopesAll (boundIn parameters body ++ around) body

/-- For each call statement inside some expressions, the names bound around it. -/
def argumentScopes (around : List String) : List Expr → List (List String)
  | [] => []
  | e :: arguments => e.scopes around ++ argumentScopes around arguments

/-- For each call statement that is a statement or inside of it, the names bound around it, told those
bound around the statement. -/
def Stmt.scopes (around : List String) : Stmt → List (List String)
  | .call _ _ arguments => around :: argumentScopes around arguments
  | .block body => scopesAll (declaredAll body ++ around) body
  | .declare _ _ value => value.scopes around
  | .function _ parameters body => scopesAll (boundIn parameters body ++ around) body
  | .ifElse test yes no =>
    test.scopes around ++ scopesAll (declaredAll yes ++ around) yes ++
      scopesAll (declaredAll no ++ around) no
  | .whileLoop test body => test.scopes around ++ scopesAll (declaredAll body ++ around) body
  | .forOf word x values body =>
    let head := if word = .varWord then around else x :: around
    values.scopes head ++ scopesAll (declaredAll body ++ head) body
  | .tryCatch tried x caught =>
    scopesAll (declaredAll tried ++ around) tried ++
      scopesAll (declaredAll caught ++ x :: around) caught

/-- For each call statement in some statements, the names bound around it, told those bound around the
statements. -/
def scopesAll (around : List String) : List Stmt → List (List String)
  | [] => []
  | s :: body => s.scopes around ++ scopesAll around body

end

/-! ## Spelling -/

/-- Whether a word can be a name: it is not reserved and none of the words that only some places
reserve. -/
def isName (x : String) : Bool :=
  !isReserved x && ! ["let", "of", "static", "async"].contains x

/-- A name and the tree it is written as. -/
def Named (x : String) (tree : Tree) : Prop :=
  tree.isIdent x = true ∧ isName x = true

/-- The tokens around a group. -/
def Encloses (delimiter : Delimiter) (opening closing : Token) : Prop :=
  opened? opening.kind = some delimiter ∧ closed? closing.kind = some delimiter

/-- Parameters between commas. -/
inductive Parameters : List String → List Tree → Prop
  | none : Parameters [] []
  | one {x tree} : Named x tree → Parameters [x] [tree]
  | more {x y xs tree comma trees} : Named x tree → comma.isPunct "," = true →
      Parameters (y :: xs) trees → Parameters (x :: y :: xs) (tree :: comma :: trees)

/-- Members behind dots. -/
inductive Members : List String → List Tree → Prop
  | none : Members [] []
  | more {m ms dot tree trees} : dot.isPunct "." = true → Named m tree → Members ms trees →
      Members (m :: ms) (dot :: tree :: trees)

/-- Whether the body of a function that a variable is declared to be opens on the line of the
parameters. -/
def Expr.opensOnLine : Expr → List Tree → Bool
  | .function .., [_, _, .group _ opening _ _] => !opening.newlineBefore
  | _, _ => true

/-- Whether a statement needs an end. -/
def Stmt.needsEnd : Stmt → Bool
  | .call .. | .declare .. => true
  | _ => false

/-- What stands between a statement and the trees behind it: a semicolon, or nothing where the body
ends or the next statement is on a new line. -/
inductive Ended : Stmt → List Tree → List Tree → Prop
  | semicolon {s tree more} : s.needsEnd = true → tree.isPunct ";" = true → Ended s [tree] more
  | last {s} : Ended s [] []
  | newLine {s tree more} : tree.newlineBefore = true → Ended s [] (tree :: more)
  | closed {s more} : s.needsEnd = false → Ended s [] more

/-- A part of a program. -/
inductive Part where
  | value (e : Expr)
  | arguments (es : List Expr)
  | statement (s : Stmt)
  | body (b : List Stmt)

/-- `Spells part trees calls fits`: a part of a program is written as `trees`, in which `calls` are the
trees of its call statements in order, and `fits` says whether each function that a variable is declared
to be opens its body on the line of its parameters. -/
inductive Spells : Part → List Tree → List (List Tree) → Bool → Prop
  | name {x tree} : Named x tree → Spells (.value (.name x)) [tree] [] true
  | number {token} : token.kind = .number → Spells (.value (.number token.text)) [.leaf token] [] true
  | call {x ms es tree members a b inside calls fits} :
      Named x tree → Members ms members → Encloses .paren a b →
      Spells (.arguments es) inside calls fits →
      Spells (.value (.call x ms es)) (tree :: (members ++ [.group .paren a b inside])) calls fits
  | function {ps b word a a' c c' parameters inside calls fits} :
      word.isIdent "function" = true → Encloses .paren a a' → Parameters ps parameters →
      Encloses .brace c c' → Spells (.body b) inside calls fits →
      Spells (.value (.function ps b))
        [word, .group .paren a a' parameters, .group .brace c c' inside] calls fits
  | arrow {ps b sign a a' c c' parameters inside calls fits} :
      Encloses .paren a a' → Parameters ps parameters → sign.isPunct "=>" = true →
      Encloses .brace c c' → Spells (.body b) inside calls fits →
      Spells (.value (.arrow ps b))
        [.group .paren a a' parameters, sign, .group .brace c c' inside] calls fits
  | noArguments : Spells (.arguments []) [] [] true
  | oneArgument {e trees calls fits} : Spells (.value e) trees calls fits →
      Spells (.arguments [e]) trees calls fits
  | moreArguments {e e' es trees comma more calls calls' fits fits'} :
      Spells (.value e) trees calls fits → comma.isPunct "," = true →
      Spells (.arguments (e' :: es)) more calls' fits' →
      Spells (.arguments (e :: e' :: es)) (trees ++ comma :: more) (calls ++ calls') (fits && fits')
  | callStatement {x ms es trees calls fits} : Spells (.value (.call x ms es)) trees calls fits →
      Spells (.statement (.call x ms es)) trees (trees :: calls) fits
  | block {b a a' inside calls fits} : Encloses .brace a a' → Spells (.body b) inside calls fits →
      Spells (.statement (.block b)) [.group .brace a a' inside] calls fits
  | declare {word x v tree name sign trees calls fits} :
      tree.isIdent word.text = true → Named x name → sign.isPunct "=" = true →
      Spells (.value v) trees calls fits →
      Spells (.statement (.declare word x v)) (tree :: name :: sign :: trees) calls
        (fits && v.opensOnLine trees)
  | functionStatement {f ps b word name a a' c c' parameters inside calls fits} :
      word.isIdent "function" = true → Named f name → Encloses .paren a a' →
      Parameters ps parameters → Encloses .brace c c' → Spells (.body b) inside calls fits →
      Spells (.statement (.function f ps b))
        [word, name, .group .paren a a' parameters, .group .brace c c' inside] calls fits
  | ifElse {e y n word other a a' c c' d d' head yes no calls calls' calls'' fits fits' fits''} :
      word.isIdent "if" = true → Encloses .paren a a' → Spells (.value e) head calls fits →
      Encloses .brace c c' → Spells (.body y) yes calls' fits' → other.isIdent "else" = true →
      Encloses .brace d d' → Spells (.body n) no calls'' fits'' →
      Spells (.statement (.ifElse e y n))
        [word, .group .paren a a' head, .group .brace c c' yes, other, .group .brace d d' no]
        (calls ++ calls' ++ calls'') (fits && fits' && fits'')
  | whileLoop {e b word a a' c c' head inside calls calls' fits fits'} :
      word.isIdent "while" = true → Encloses .paren a a' → Spells (.value e) head calls fits →
      Encloses .brace c c' → Spells (.body b) inside calls' fits' →
      Spells (.statement (.whileLoop e b)) [word, .group .paren a a' head, .group .brace c c' inside]
        (calls ++ calls') (fits && fits')
  | forOf {w x e b word tree name of a a' c c' trees inside calls calls' fits fits'} :
      word.isIdent "for" = true → Encloses .paren a a' → tree.isIdent (Declarer.text w) = true →
      Named x name → of.isIdent "of" = true → Spells (.value e) trees calls fits →
      Encloses .brace c c' → Spells (.body b) inside calls' fits' →
      Spells (.statement (.forOf w x e b))
        [word, .group .paren a a' (tree :: name :: of :: trees), .group .brace c c' inside]
        (calls ++ calls') (fits && fits')
  | tryCatch {t x b word other a a' c c' d d' tried name caught calls calls' fits fits'} :
      word.isIdent "try" = true → Encloses .brace a a' → Spells (.body t) tried calls fits →
      other.isIdent "catch" = true → Encloses .paren c c' → Named x name → Encloses .brace d d' →
      Spells (.body b) caught calls' fits' →
      Spells (.statement (.tryCatch t x b))
        [word, .group .brace a a' tried, other, .group .paren c c' [name], .group .brace d d' caught]
        (calls ++ calls') (fits && fits')
  | noStatements : Spells (.body []) [] [] true
  | statements {s b trees ending more calls calls' fits fits'} :
      Spells (.statement s) trees calls fits → Ended s ending more →
      Spells (.body b) more calls' fits' →
      Spells (.body (s :: b)) (trees ++ (ending ++ more)) (calls ++ calls') (fits && fits')

end Core

end DeferredLog
