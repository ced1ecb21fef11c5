import DeferredLog.Program.Outline
import DeferredLog.Tree.Build

/-!
# Programs

A program is a table of scopes and a list of expression statements, each in its scope. It is made
from an outline by walking it once: a scope gets its number when it opens, a statement when it is
met. Scope 0 is the module.

* `Program.isShadowed` asks whether a name is bound anew between a scope and the module.
* `Program.enclosing?` gives the smallest statement around an offset.
-/

namespace DeferredLog

/-- A scope: its kind, the scope around it, and the names it binds. -/
structure Scope where
  /-- Its kind. -/
  kind : ScopeKind
  /-- The number of the scope around it; none for the module. -/
  parent : Option Nat
  /-- The names it binds. -/
  names : List String
  deriving Repr

/-- Whether a scope binds a name. -/
def Scope.binds (scope : Scope) (name : String) : Bool :=
  scope.names.contains name

/-- An expression statement. -/
structure Statement where
  /-- Its number. -/
  id : Nat
  /-- Its trees, without a semicolon at the end. -/
  trees : List Tree
  /-- The number of the scope it stands in. -/
  scope : Nat
  deriving Repr

namespace Statement

/-- The offset of the first character. -/
def start (statement : Statement) : Nat :=
  (statement.trees.head?.map Tree.start).getD 0

/-- The offset just behind the last character. -/
def stop (statement : Statement) : Nat :=
  (statement.trees.getLast?.map Tree.stop).getD 0

/-- The bytes of a statement, from its first tree to its last. -/
def span (statement : Statement) : Span :=
  ⟨statement.start, statement.stop⟩

end Statement

/-- A program. -/
structure Program where
  /-- The scopes by number. -/
  scopes : Array Scope
  /-- The expression statements by number. -/
  statements : Array Statement
  deriving Repr

namespace Program

/-- The program without statements: a module that binds nothing. -/
def empty : Program := ⟨#[⟨.module, none, []⟩], #[]⟩

/-! ## Construction -/

/-- Where a part of an outline stands. -/
structure Place where
  /-- The number of the scope around it. -/
  scope : Nat
  /-- The number of the nearest function or module around it. -/
  home : Nat
  deriving DecidableEq, Repr

/-- The place in the module. -/
def Place.top : Place := ⟨0, 0⟩

/-- The place inside a scope of the given kind and number. -/
def Place.within (place : Place) (kind : ScopeKind) (scope : Nat) : Place :=
  ⟨scope, if kind = .block then place.home else scope⟩

/-- The program with a name bound in a scope. -/
def bind (program : Program) (scope : Nat) (name : String) : Program :=
  { program with
    scopes := program.scopes.modify scope fun s => { s with names := name :: s.names } }

/-- The program with one more scope. -/
def openScope (program : Program) (kind : ScopeKind) (parent : Nat) : Program :=
  { program with scopes := program.scopes.push ⟨kind, some parent, []⟩ }

/-- The program with one more statement. -/
def record (program : Program) (trees : List Tree) (scope : Nat) : Program :=
  { program with
    statements := program.statements.push ⟨program.statements.size, trees, scope⟩ }

mutual

/-- The program with a part of an outline added at a place. -/
def add (program : Program) (place : Place) : Item → Program
  | .bind name => program.bind place.scope name
  | .hoist name => program.bind place.home name
  | .statement trees => program.record trees place.scope
  | .scope kind outside inside =>
    let opened := program.openScope kind place.scope
    addAll (addAll opened place outside) (place.within kind program.scopes.size) inside

/-- The program with the parts of an outline added at a place, in order. -/
def addAll (program : Program) (place : Place) : List Item → Program
  | [] => program
  | item :: items => addAll (add program place item) place items

end

/-- The program of an outline. -/
def ofOutline (items : List Item) : Program :=
  addAll empty .top items

/-- The program of a list of token trees. -/
def ofTrees (trees : List Tree) : Except Fault Program :=
  (Outline.body trees).map ofOutline

/-- The program of a text. -/
def parse (source : List Char) : Except Fault Program := do
  ofTrees (← Tree.parse source)

/-! ## Questions -/

/-- The numbers of a scope and of the scopes around it, the innermost first. Numbers of scopes
around another are smaller than its own. -/
def ancestors (program : Program) (scope : Nat) : List Nat :=
  match program.scopes[scope]? with
  | none => []
  | some found =>
    match found.parent with
    | none => [scope]
    | some parent => scope :: if parent < scope then ancestors program parent else []
termination_by scope

/-- Whether the scope with a number binds a name and is not the module. -/
def rebinds (program : Program) (name : String) (scope : Nat) : Bool :=
  match program.scopes[scope]? with
  | none => false
  | some found => found.kind != .module && found.binds name

/-- Whether a name is bound anew by a scope or one around it. What the module binds does not
count. -/
def isShadowed (program : Program) (name : String) (scope : Nat) : Bool :=
  (program.ancestors scope).any (program.rebinds name)

/-- The shorter of two statements, the first if they are of one length. -/
def shorter (best : Option Statement) (statement : Statement) : Option Statement :=
  match best with
  | none => some statement
  | some found => if statement.span.length < found.span.length then some statement else some found

/-- The smallest statement that contains an offset; of several of one size the first. -/
def enclosing? (program : Program) (offset : Nat) : Option Statement :=
  (program.statements.toList.filter (·.span.contains offset)).foldl shorter none

end Program

end DeferredLog
