import DeferredLog.Literal
import DeferredLog.Program.Extent
import DeferredLog.Text.Word

/-!
# Imports

The imports and re-exports of a program, read off its token trees without walking its statements.

* `Import.mayOccur` is a quick test on the text: a program without the words `import` and `export`
  has no imports.
* `Import.ofTrees` lists the imports in the order of the text. Clauses are looked for at the top
  level, calls of `import` at any depth.
-/

namespace DeferredLog

open DeferredLog.Tree

/-- The kinds of imports. -/
inductive ImportKind where
  /-- An import with a clause. -/
  | static
  /-- An import of a module for its effect alone. -/
  | sideEffect
  | reExport
  /-- A call of `import`. -/
  | dynamic
  deriving DecidableEq, Repr

/-- A name that an import clause introduces. -/
structure ImportName where
  /-- The name in the module: `default` for the default export and `*` for all of them. -/
  imported : String
  /-- The name in the program. -/
  localName : String
  deriving DecidableEq, Repr

/-- An import or re-export. -/
structure Import where
  /-- Its kind. -/
  kind : ImportKind
  /-- Its bytes, with a semicolon at its end. -/
  span : Span
  /-- The module it names; none for a call with a computed argument. -/
  specifier : Option String
  /-- The names it introduces. -/
  names : List ImportName
  deriving DecidableEq, Repr

namespace Import

/-- Whether the module is known before the program runs. -/
def isStatic (record : Import) : Bool :=
  record.kind != .dynamic && record.specifier.isSome

/-- The names in the program of the default import and the named imports. -/
def localNames (record : Import) : List String :=
  (record.names.filter (·.imported != "*")).map (·.localName)

/-- Whether a text may have imports. -/
def mayOccur (source : List Char) : Bool :=
  Text.hasWord ["import".toList, "export".toList] none source

/-! ## Clauses -/

/-- The text that a string literal stands for. -/
def specifierOf (token : Token) : String :=
  String.ofList (Literal.value token.text.toList)

/-- The trees behind an import whose specifier ends at `stop`, and where the import ends: it takes
attributes and a semicolon along. -/
def clauseTail (stop : Nat) (trees : List Tree) : List Tree × Nat :=
  let (rest, stop) := match trees with
    | word :: .group .brace _ closing _ :: rest =>
      if word.isIdent "with" || word.isIdent "assert" then (rest, closing.stop) else (trees, stop)
    | _ => (trees, stop)
  match rest with
  | tree :: rest' => if tree.isPunct ";" then (rest', tree.stop) else (rest, stop)
  | [] => (rest, stop)

/-- The name that a piece of a named clause introduces, if it is well formed. -/
def clauseName? (piece : List Tree) : Option ImportName := do
  let first ← piece.head?
  let imported ← (first.string?.map specifierOf) <|> first.ident?
  match piece with
  | [_] => some ⟨imported, imported⟩
  | [_, word, renamed] =>
    if word.isIdent "as" then return ⟨imported, ← renamed.ident?⟩ else none
  | _ => none

/-- The names of a clause in braces. -/
def namedClause (trees : List Tree) : List ImportName :=
  (betweenCommas trees).filterMap clauseName?

/-- The names of an import clause, and the trees behind the word `from` that ends it. -/
def clause? : List Tree → Option (List ImportName × List Tree)
  | [] => none
  | tree :: rest =>
    if tree.isIdent "from" then some ([], rest)
    else
      match tree.inside? .brace, tree.ident? with
      | some trees, _ => (clause? rest).map fun r => (namedClause trees ++ r.1, r.2)
      | none, some name => (clause? rest).map fun r => (⟨"default", name⟩ :: r.1, r.2)
      | none, none =>
        if tree.isPunct "*" then
          match rest with
          | _ :: renamed :: rest =>
            match renamed.ident? with
            | some name => (clause? rest).map fun r => (⟨"*", name⟩ :: r.1, r.2)
            | none => none
          | _ => none
        else if tree.isPunct "," then clause? rest
        else none

/-- The import of the module named by the first of some trees, and the trees behind it. -/
def named? (kind : ImportKind) (start : Nat) (names : List ImportName) (trees : List Tree) :
    Option (Import × List Tree) := do
  let tree ← trees.head?
  let token ← tree.string?
  let (rest, stop) := clauseTail token.stop trees.tail
  return (⟨kind, ⟨start, stop⟩, specifierOf token, names⟩, rest)

/-- The import that starts with the word `import` at `start`, from behind that word. -/
def static? (start : Nat) (trees : List Tree) : Option (Import × List Tree) :=
  match named? .sideEffect start [] trees with
  | some found => some found
  | none => (clause? trees).bind fun (names, rest) => named? .static start names rest

/-- The re-export that starts with the word `export` at `start`, from behind that word. -/
def reExport? (start : Nat) (trees : List Tree) : Option (Import × List Tree) := do
  let head ← trees.head?
  let rest ←
    if head.isPunct "*" then
      match trees.tail with
      | word :: rest => some (if word.isIdent "as" then rest.tail else word :: rest)
      | [] => some []
    else (head.inside? .brace).map fun _ => trees.tail
  named? .reExport start [] (← behindWord? "from" rest)

/-- The import or re-export that starts with a tree, and the trees behind it. -/
def at? (tree : Tree) (rest : List Tree) : Option (Import × List Tree) :=
  if tree.isIdent "import" then static? tree.start rest
  else if tree.isIdent "export" then reExport? tree.start rest
  else none

/-- The imports and re-exports at the top level, behind as many trees as are to be skipped. -/
def clauses : Nat → List Tree → List Import
  | _, [] => []
  | skipped + 1, _ :: trees => clauses skipped trees
  | 0, tree :: trees =>
    match at? tree trees with
    | some (record, rest) => record :: clauses (trees.length - rest.length) trees
    | none => clauses 0 trees

/-! ## Calls -/

/-- The module that the arguments of a call name: its first argument must be one string. -/
def argumentSpecifier? (arguments : List Tree) : Option String := do
  match (betweenCommas arguments).head? with
  | some [tree] => tree.string?.map specifierOf
  | _ => none

mutual

/-- The calls of `import` in a tree, told the tree behind it and whether a dot precedes it. -/
def callsAt (afterDot : Bool) (next : Option Tree) : Tree → List Import
  | .group _ _ _ trees => calls false trees
  | .leaf token =>
    match next with
    | some (.group .paren _ closing arguments) =>
      if !afterDot && Tree.isIdent "import" (.leaf token) then
        [⟨.dynamic, ⟨token.start, closing.stop⟩, argumentSpecifier? arguments, []⟩]
      else []
    | _ => []

/-- The calls of `import` in some trees, told whether a dot precedes them. -/
def calls (afterDot : Bool) : List Tree → List Import
  | [] => []
  | tree :: trees => callsAt afterDot trees.head? tree ++ calls tree.isDot trees

end

/-- The imports of a program, in the order of the text. -/
def ofTrees (trees : List Tree) : List Import :=
  (clauses 0 trees ++ calls false trees).mergeSort fun a b => a.span.start ≤ b.span.start

end Import

end DeferredLog
