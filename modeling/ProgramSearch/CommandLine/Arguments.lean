import ProgramSearch.Budget
import ProgramSearch.Text.Numeral

namespace ProgramSearch
namespace CommandLine

/-!
# Reading the command line

Options for the whole program come first, then a command, then the command's own
options.  A value follows its option as the next word or behind an equals sign.
Options that hold one value may be given once, the others any number of times.
Two dashes alone may end the options of a command, but no word may follow them.
-/

/-- Why a command line is refused. -/
inductive UsageError where
  | noCommand
  | unexpected (word : String)
  | missingValue (option : String)
  | invalidValue (option value : String)
  | repeated (option : String)
  | missingOption (option : String)
deriving DecidableEq

namespace UsageError

def message : UsageError → String
  | noCommand => "a command is required: arith or query"
  | unexpected word => s!"unexpected argument '{word}'"
  | missingValue option => s!"option '--{option}' needs a value"
  | invalidValue option value => s!"invalid value '{value}' for option '--{option}'"
  | repeated option => s!"option '--{option}' may be given once only"
  | missingOption option => s!"option '--{option}' is required"

end UsageError

/-- An option word without its dashes, and the value behind its equals sign. -/
def splitOption (word : String) : Option (String × Option String) :=
  match word.toList with
  | '-' :: '-' :: chars =>
      let name := String.ofList (chars.takeWhile (· ≠ '='))
      match chars.dropWhile (· ≠ '=') with
      | [] => some (name, none)
      | _ :: value => some (name, some (String.ofList value))
  | _ => none

/-- The number of times a word such as `-v` or `-vv` asks for more messages. -/
def verbosityOf? (word : String) : Option Nat :=
  match word.toList with
  | '-' :: 'v' :: more => if more.all (· = 'v') then some (more.length + 1) else none
  | _ => none

/-- A number that fits in 64 bits, as an option's value. -/
def integerValue (option value : String) : Except UsageError Int64 :=
  match Numeral.integer? value with
  | none => .error (.invalidValue option value)
  | some number => .ok number

/-- A count, as an option's value. -/
def countValue (option value : String) : Except UsageError Nat :=
  match Numeral.natural? Numeral.countBound value with
  | none => .error (.invalidValue option value)
  | some number => .ok number

/-- The value of an option that may be given once. -/
def once (option : String) (present : Option α) (value : α) : Except UsageError (Option α) :=
  match present with
  | none => .ok (some value)
  | some _ => .error (.repeated option)

/-- The options of the arithmetic command as read so far. -/
structure ArithmeticOptions where
  output : Option Int64
  inputs : List Int64
  constants : List Int64
  enumerate : Option Nat
deriving DecidableEq

namespace ArithmeticOptions

def empty : ArithmeticOptions :=
  ⟨none, [], [], none⟩

/-- The options that exist. -/
def names : List String :=
  ["output", "input", "constant", "enumerate"]

/-- Record one option with its value. -/
def record (options : ArithmeticOptions) (name value : String) :
    Except UsageError ArithmeticOptions :=
  if name = "output" then do
    let output ← once name options.output (← integerValue name value)
    return { options with output }
  else if name = "input" then do
    return { options with inputs := options.inputs ++ [← integerValue name value] }
  else if name = "constant" then do
    return { options with constants := options.constants ++ [← integerValue name value] }
  else if name = "enumerate" then do
    let enumerate ← once name options.enumerate (← countValue name value)
    return { options with enumerate }
  else
    .error (.unexpected ("--" ++ name))

/-- Read the words behind the command. -/
def read (options : ArithmeticOptions) : List String → Except UsageError ArithmeticOptions
  | [] => .ok options
  | word :: words =>
      if word = "--" then
        match words with
        | [] => .ok options
        | extra :: _ => .error (.unexpected extra)
      else
        match splitOption word with
        | none => .error (.unexpected word)
        | some (name, some value) => do
            let options ← options.record name value
            read options words
        | some (name, none) =>
            if name ∈ names then
              match words with
              | [] => .error (.missingValue name)
              | value :: words => do
                  let options ← options.record name value
                  read options words
            else .error (.unexpected word)

end ArithmeticOptions

/-- What is to be done. -/
inductive Command where
  | arithmetic (output : Int64) (inputs constants : List Int64) (enumerate : Option Nat)
  | query
deriving DecidableEq

/-- The constants tried when none are given. -/
def standardConstants : List Int64 :=
  [0, 1, 2]

/-- The arithmetic command with all its options. -/
def readArithmetic (words : List String) : Except UsageError Command := do
  let options ← ArithmeticOptions.empty.read words
  match options.output with
  | none => .error (.missingOption "output")
  | some output =>
      let constants :=
        if options.constants.isEmpty then standardConstants else options.constants
      return .arithmetic output options.inputs constants options.enumerate

/-- The query command, which has no options. -/
def readQuery : List String → Except UsageError Command
  | [] => .ok .query
  | ["--"] => .ok .query
  | word :: _ => .error (.unexpected word)

/-- A command and the options that hold for every command. -/
structure Invocation where
  verbosity : Nat
  budget : Nat
  command : Command
deriving DecidableEq

/-- Read the words of a command line, given the general options read so far. -/
def readFrom (verbosity : Nat) (budget : Option Nat) :
    List String → Except UsageError Invocation
  | [] => .error .noCommand
  | word :: words =>
      let limit := budget.getD Budget.standardLimit
      if word = "arith" then
        (readArithmetic words).map (Invocation.mk verbosity limit)
      else if word = "query" then
        (readQuery words).map (Invocation.mk verbosity limit)
      else
        match verbosityOf? word with
        | some count => readFrom (verbosity + count) budget words
        | none =>
            match splitOption word with
            | some ("verbose", none) => readFrom (verbosity + 1) budget words
            | some ("budget", some value) => do
                let budget ← once "budget" budget (← countValue "budget" value)
                readFrom verbosity budget words
            | some ("budget", none) =>
                match words with
                | [] => .error (.missingValue "budget")
                | value :: words => do
                    let budget ← once "budget" budget (← countValue "budget" value)
                    readFrom verbosity budget words
            | _ => .error (.unexpected word)

/-- What a command line asks for. -/
def read (words : List String) : Except UsageError Invocation :=
  readFrom 0 none words

end CommandLine
end ProgramSearch
