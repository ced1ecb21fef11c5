import DeferredLog.Import.Binding
import DeferredLog.Program
import DeferredLog.Text.Name

/-!
# Calls of the logger

Where a program calls the logger: statements `name.level(…)` and `name.level.modifier(…)` that come
behind the import of the name. Names are looked for in the text, and the trees of the statement
around an occurrence decide.

* `CallSite.occurrences` are the offsets at which a name stands in a text, not as a part of a longer
  name.
* `CallSite.callEnd?` is the end of a statement that calls the logger.
* `CallSite.locate` lists the statements that an occurrence lies in, each once and in order.
-/

namespace DeferredLog

namespace CallSite

/-! ## Occurrences -/

/-- The offsets at which a word is found in a text that starts at an offset, told the character
before it and how many characters to skip first. Finds do not overlap. -/
def finds (word : List Char) (offset : Nat) (before : Option Char) (skipped : Nat) :
    List Char → List Nat
  | [] => if skipped = 0 ∧ word = [] ∧ !before.any Text.isNamePart then [offset] else []
  | c :: cs =>
    match skipped with
    | skipped + 1 => finds word (offset + c.utf8Size) (some c) skipped cs
    | 0 =>
      match Text.behind? word (c :: cs) with
      | none => finds word (offset + c.utf8Size) (some c) 0 cs
      | some rest =>
        let found := !before.any Text.isNamePart && !rest.head?.any Text.isNamePart
        (if found then [offset] else []) ++
          finds word (offset + c.utf8Size) (some c) (word.length - 1) cs

/-- The offsets, from the given one on, at which a name stands in a text and is not a part of a
longer name. What precedes the given offset does not count. -/
def occurrences (source : List Char) (name : String) (start : Nat) : List Nat :=
  match Text.splitAt? start source with
  | none => []
  | some (_, rest) => finds name.toList start none 0 rest

/-! ## Statements -/

/-- The parts of a call of a member or of a member of a member: its first tree, the names behind
dots, and its arguments. -/
def parts? : List Tree → Option (Tree × List Tree × Tree)
  | [head, dot, level, arguments] =>
    if dot.isPunct "." then some (head, [level], arguments) else none
  | [head, dot, level, dot', modifier, arguments] =>
    if dot.isPunct "." && dot'.isPunct "." then some (head, [level, modifier], arguments) else none
  | _ => none

/-- The offset just behind a statement that calls the logger by one of some names. The name must not
be bound anew around the statement. -/
def callEnd? (program : Program) (names : List String) (statement : Statement) : Option Nat := do
  let (head, path, arguments) ← parts? statement.trees
  let name ← head.ident?
  if names.contains name && !program.isShadowed name statement.scope &&
      path.all (·.ident?.isSome) && (arguments.inside? .paren).isSome then
    some arguments.stop
  else none

end CallSite

/-- A statement that a name of the logger occurs in. -/
structure CallSite where
  /-- The statement. -/
  statement : Statement
  /-- Where it ends, if it calls the logger. -/
  callEnd : Option Nat
  deriving Repr

namespace CallSite

/-- Puts a statement among others ordered by number, unless it is there. -/
def insertStatement (statement : Statement) : List Statement → List Statement
  | [] => [statement]
  | first :: rest =>
    if statement.id < first.id then statement :: first :: rest
    else if statement.id = first.id then first :: rest
    else first :: insertStatement statement rest

/-- The offsets at which the logger's names occur behind its import. -/
def allOccurrences (source : List Char) (names : List String) (start : Nat) : List Nat :=
  names.flatMap fun name => occurrences source name start

/-- The statements in which the logger's names occur behind its import, in order. -/
def locate (source : List Char) (program : Program) (names : List String) (start : Nat) :
    List CallSite :=
  let around := (allOccurrences source names start).filterMap program.enclosing?
  (around.foldl (fun found statement => insertStatement statement found) []).map fun statement =>
    ⟨statement, callEnd? program names statement⟩

/-- The notice of a statement that is no call of the logger. -/
def notice? (site : CallSite) : Option Notice :=
  match site.callEnd with
  | some _ => none
  | none =>
    some ⟨.trace, "rejecting statement at " ++ toString site.statement.start ++
      ": not a logger member call"⟩

example : occurrences "a.a aa $a a".toList "a" 0 = [0, 2, 10] := by decide +kernel

end CallSite

end DeferredLog
