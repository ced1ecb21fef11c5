import DeferredLog.Machine
import DeferredLog.Notice
import DeferredLog.Text.Blank
import DeferredLog.Text.Terminal

/-!
# Filters of notices

Which notices a command prints, and how. A notice has a target, the name of the part of the program
that it comes from. A filter is a list of rules with commas between them, each a target and the least
severity of what is printed from there; a rule counts for all targets that start with its own, and
the longest one decides.

* `Filter.parse` reads the text of a filter.
* `Filter.allows` says whether a notice is printed.
* `Filter.line` is a notice as it is printed.
-/

namespace DeferredLog

/-- A rule of a filter. -/
structure FilterRule where
  /-- What the targets that it is for start with. -/
  target : String
  /-- The rank of the least severity printed, and zero where nothing is. -/
  rank : Nat
  deriving DecidableEq, Repr

/-- The rules that decide which notices are printed. -/
abbrev Filter := List FilterRule

namespace Filter

/-- The text without white space around it. -/
def trim (text : List Char) : List Char :=
  ((text.dropWhile Text.isBlank).reverse.dropWhile Text.isBlank).reverse

/-- The rank with a name, in either case. -/
def rank? (name : List Char) : Option Nat :=
  let name := String.ofList (name.map Char.toLower)
  if name = "off" then some 0 else (Severity.ofName? name).map (·.rank)

/-- The rank of the severity that matters least. -/
def greatest : Nat := Severity.trace.rank

/-- Reads a rule. One that makes no sense is left out. -/
def rule? (text : List Char) : Option FilterRule :=
  match Text.splitOn '=' text with
  | [word] =>
    match rank? word with
    | some rank => some ⟨"", rank⟩
    | none => some ⟨String.ofList word, greatest⟩
  | [target, level] =>
    if (trim level).isEmpty then some ⟨String.ofList target, greatest⟩
    else (rank? (trim level)).map fun rank => ⟨String.ofList target, rank⟩
  | _ => none

/-- Reads a filter. One without rules prints errors only. -/
def parse (text : String) : Filter :=
  let pieces := ((Text.splitOn ',' text.toList).map trim).filter fun piece => !piece.isEmpty
  match pieces.filterMap rule? with
  | [] => [⟨"", Severity.error.rank⟩]
  | rules => rules

/-- The longer of two rules, the second of two that are equally long. -/
def longer (best : Option FilterRule) (rule : FilterRule) : Option FilterRule :=
  match best with
  | none => some rule
  | some found =>
    if found.target.utf8ByteSize ≤ rule.target.utf8ByteSize then some rule else some found

/-- The rule that decides about a target. -/
def rule (filter : Filter) (target : String) : Option FilterRule :=
  (filter.filter fun rule => (Text.behind? rule.target.toList target.toList).isSome).foldl longer
    none

/-- Whether a notice from a target is printed. -/
def allows (filter : Filter) (target : String) (severity : Severity) : Bool :=
  (filter.rule target).any fun rule => severity.rank ≤ rule.rank

/-- The word for a severity, five characters wide. -/
def word : Severity → String
  | .error => "ERROR"
  | .warn => "WARN "
  | .info => "INFO "
  | .debug => "DEBUG"
  | .trace => "TRACE"

/-- What the lines of a text but the first start with. -/
def margin : List Char := "    ".toList

/-- A text whose lines but the first are indented. -/
def indent (text : List Char) : List Char :=
  text.flatMap fun c => if c = '\n' then c :: margin else [c]

/-- A notice from a target as it is printed, without what may steer a terminal. -/
def line (target : String) (notice : Notice) : String :=
  let start := "[" ++ word notice.severity ++ " " ++ target ++ "] "
  String.ofList (Text.plain (start.toList ++ indent notice.text.toList ++ ['\n']))

/-- Prints a notice, if it is to be printed. -/
def print {m : Type → Type} [Monad m] [Machine m] (filter : Filter) (target : String)
    (notice : Notice) : m Unit :=
  if filter.allows target notice.severity then Machine.printError (line target notice)
  else pure ()

example : (parse "console=debug,console_logger=info").allows "console_logger" .debug = false := by
  decide +kernel

example : line "t" ⟨.info, "a\nb"⟩ = "[INFO  t] a\n    b\n" := by decide +kernel

end Filter

end DeferredLog
