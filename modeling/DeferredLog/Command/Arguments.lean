import DeferredLog.Text.Split

/-!
# Command line arguments

The arguments of a command are flags, options with a value, and operands. A value follows its option
as the next argument or behind an equals sign. Two dashes end the options. No flag or option may be
given twice.

* `Arguments.parse` reads a list of arguments, told what the command takes.
* `Arguments.parse_operands`: arguments without dashes are operands.
-/

namespace DeferredLog

/-- An option of a command. -/
structure OptionRule where
  /-- Its name, without dashes. -/
  name : String
  /-- Whether a value will do. -/
  accepts : String → Bool

/-- What a command takes. -/
structure ArgumentRules where
  /-- The names of its flags. -/
  flags : List String
  /-- Its options. -/
  options : List OptionRule
  /-- Whether an operand will do. -/
  operand : String → Bool

/-- The arguments of a command. -/
structure Arguments where
  /-- The flags that are given. -/
  flags : List String
  /-- The options that are given, with their values. -/
  values : List (String × String)
  /-- The operands in order. -/
  operands : List String
  deriving DecidableEq, Repr

/-- What a list of arguments asks for. -/
inductive Request where
  /-- To print the version. -/
  | version
  /-- To run the command. -/
  | run (arguments : Arguments)
  deriving DecidableEq, Repr

namespace Arguments

/-- No arguments. -/
def empty : Arguments := ⟨[], [], []⟩

/-- The value of an option. -/
def value? (arguments : Arguments) (name : String) : Option String :=
  arguments.values.lookup name

/-- The arguments with a flag, unless it is given already. -/
def addFlag (arguments : Arguments) (name : String) : Option Arguments :=
  if arguments.flags.contains name then none
  else some { arguments with flags := arguments.flags ++ [name] }

/-- The arguments with the value of an option, unless it is given already or will not do. -/
def addValue (arguments : Arguments) (rule : OptionRule) (value : String) : Option Arguments :=
  if (arguments.value? rule.name).isSome || !rule.accepts value then none
  else some { arguments with values := arguments.values ++ [(rule.name, value)] }

/-- The arguments with an operand, unless it will not do. -/
def addOperand (arguments : Arguments) (rules : ArgumentRules) (operand : String) :
    Option Arguments :=
  if rules.operand operand then
    some { arguments with operands := arguments.operands ++ [operand] }
  else none

/-- Whether an argument has the form of a flag or option. A single dash has not. -/
def isDashed (argument : String) : Bool :=
  argument.toList.head? = some '-' && argument != "-"

/-- The name in an argument with two dashes, and the text behind its equals sign. -/
def long? (argument : String) : Option (String × Option String) :=
  match argument.toList with
  | '-' :: '-' :: cs =>
    some (String.ofList (cs.takeWhile (· != '=')),
      match cs.dropWhile (· != '=') with
      | [] => none
      | _ :: value => some (String.ofList value))
  | _ => none

/-- Reads the arguments behind those that are given. There is no request where one will not do. -/
def parseFrom (rules : ArgumentRules) (given : Arguments) : List String → Option Request
  | [] => some (.run given)
  | "--" :: rest =>
    (rest.foldlM (fun (given : Arguments) => given.addOperand rules) given).map .run
  | argument :: rest =>
    match long? argument with
    | some (name, attached) =>
      match rules.options.find? (·.name = name), attached, rest with
      | some rule, some value, rest =>
        (given.addValue rule value).bind fun given => parseFrom rules given rest
      | some rule, none, value :: rest =>
        if isDashed value then none
        else (given.addValue rule value).bind fun given => parseFrom rules given rest
      | some _, none, [] => none
      | none, some _, _ => none
      | none, none, rest =>
        if name = "version" then some .version
        else if rules.flags.contains name then
          (given.addFlag name).bind fun given => parseFrom rules given rest
        else none
    | none =>
      if isDashed argument then
        if argument.toList.take 2 = ['-', 'V'] then some .version else none
      else (given.addOperand rules argument).bind fun given => parseFrom rules given rest

/-- Reads the arguments of a command. There is no request where one will not do. -/
def parse (rules : ArgumentRules) (arguments : List String) : Option Request :=
  parseFrom rules .empty arguments

theorem long?_eq_none {argument : String} (h : isDashed argument = false) :
    argument ≠ "--" ∧ long? argument = none := by
  have hne : argument ≠ "--" := by
    rintro rfl
    revert h
    decide
  refine ⟨hne, ?_⟩
  rw [long?]
  split
  · rename_i cs hcs
    simp only [isDashed, hcs, List.head?_cons, decide_true, Bool.true_and, bne_eq_false_iff_eq] at h
    simp [h] at hcs
  · rfl

theorem parse_operands {rules : ArgumentRules} {arguments : List String}
    (dashed : ∀ argument ∈ arguments, isDashed argument = false)
    (fit : ∀ argument ∈ arguments, rules.operand argument = true) :
    parse rules arguments = some (.run ⟨[], [], arguments⟩) := by
  suffices h : ∀ given : Arguments, parseFrom rules given arguments =
      some (.run { given with operands := given.operands ++ arguments }) from h .empty
  induction arguments with
  | nil => simp [parseFrom]
  | cons argument rest ih =>
    intro given
    obtain ⟨hne, hlong⟩ := long?_eq_none (dashed argument List.mem_cons_self)
    rw [parseFrom]
    · simp only [hlong, dashed argument List.mem_cons_self, addOperand,
        fit argument List.mem_cons_self, if_true, Bool.false_eq_true, if_false, Option.bind_some]
      rw [ih (fun a ha => dashed a (List.mem_cons_of_mem _ ha))
        (fun a ha => fit a (List.mem_cons_of_mem _ ha))]
      simp
    · exact hne

end Arguments

end DeferredLog
