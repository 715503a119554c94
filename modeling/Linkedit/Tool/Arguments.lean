import Linkedit.Bind.Interpret

/-!
# Command lines

A command line names a subcommand with its operands. Options may stand between
them: a long option is `--name value` or `--name=value`, a short one is
`-n value`, `-nvalue` or `-n=value`. A value that stands by itself does not
begin with a dash, unless it is a single dash. After `--` everything is an
operand. The verbosity may be given before and after the subcommand, and the
later one counts.
-/

namespace Linkedit.Tool

/-! ## What a command line asks for -/

/-- The exports to remove and where to write the images without them. -/
structure StripRequest where
  files : List String
  names : List String
  start? : Option String
  output : String
deriving DecidableEq, Repr

/-- A subcommand with its operands. -/
inductive Command where
  | exports (files : List String)
  | lookup (file symbol : String)
  | binds (file : String) (limit : Nat)
  | stripExports (request : StripRequest)
deriving DecidableEq, Repr

/-- A subcommand and how much to report while it runs. -/
structure Invocation where
  verbosity : Nat
  command : Command
deriving DecidableEq, Repr

/-- Why a command line is not run. -/
inductive Stop where
  | version
  | help
  | refused
deriving DecidableEq, Repr

/-! ## Numbers -/

/-- The number written by decimal digits alone. -/
def digits? (characters : List Char) : Option Nat :=
  if characters.isEmpty then none
  else characters.foldlM (fun value character =>
    if '0' ≤ character ∧ character ≤ '9' then
      some (value * 10 + (character.toNat - '0'.toNat))
    else none) 0

/-- A count: digits, with or without a plus sign, below 2^64. -/
def count? (text : String) : Option Nat :=
  let value? := match text.toList with
    | '+' :: characters => digits? characters
    | characters => digits? characters
  value?.filter (· < UInt64.size)

/-- A verbosity: a number from 0 to 255 with or without a sign. -/
def verbosity? (text : String) : Option Nat :=
  match text.toList with
  | '-' :: characters => (digits? characters).filter (· = 0)
  | '+' :: characters => (digits? characters).filter (· ≤ 255)
  | characters => (digits? characters).filter (· ≤ 255)

/-! ## Options -/

/-- The options that take a value. -/
inductive Setting where
  | verbosity
  | jobs
  | limit
  | name
  | start
  | output
deriving DecidableEq, Repr

namespace Setting

/-- The long name of an option. -/
def long : Setting → String
  | .verbosity => "verbosity"
  | .jobs => "jobs"
  | .limit => "error-limit"
  | .name => "remove"
  | .start => "prefix"
  | .output => "output"

/-- The letter of an option. -/
def short? : Setting → Option Char
  | .verbosity => some 'v'
  | .jobs => some 'j'
  | .limit => none
  | .name => some 'r'
  | .start => some 'p'
  | .output => some 'o'

/-- Whether an option takes a value. -/
def accepts (value : String) : Setting → Bool
  | .verbosity => (verbosity? value).isSome
  | .jobs | .limit => (count? value).isSome
  | .name | .start => true
  | .output => !value.isEmpty

/-- Whether an option may be given more than once. -/
def repeatable : Setting → Bool
  | .name => true
  | _ => false

end Setting

/-- The parts of a command line that were read: the options with their values,
and the operands. -/
structure Scanned where
  settings : List (Setting × String) := []
  operands : List String := []
deriving DecidableEq, Repr

/-- Adds an option with its value. -/
def Scanned.set (scanned : Scanned) (setting : Setting) (value : String) :
    Except Stop Scanned :=
  let given := scanned.settings.any fun (other, _) => other = setting
  if (given && !setting.repeatable) || !setting.accepts value then .error .refused
  else .ok { scanned with settings := scanned.settings ++ [(setting, value)] }

/-- The last value of an option. -/
def Scanned.value? (scanned : Scanned) (setting : Setting) : Option String :=
  (scanned.settings.filterMap fun (other, value) =>
    if other = setting then some value else none).getLast?

/-- All values of an option. -/
def Scanned.values (scanned : Scanned) (setting : Setting) : List String :=
  scanned.settings.filterMap fun (other, value) =>
    if other = setting then some value else none

/-- What an operand stands for. -/
inductive Operand where
  | file
  | symbol
deriving DecidableEq, Repr

/-- Whether a text can be an operand. A file has a name. -/
def Operand.accepts (text : String) : Operand → Bool
  | .file => !text.isEmpty
  | .symbol => true

/-- What may be given at one place of a command line: the options, and what the
operand at each position stands for. Before the subcommand, the first operand
ends the reading. -/
structure Grammar where
  settings : List Setting
  operand? : (position : Nat) → Option Operand
  leading : Bool

/-- Adds an operand, if there may be one more. -/
def Grammar.add (grammar : Grammar) (scanned : Scanned) (text : String) :
    Except Stop Scanned :=
  match grammar.operand? scanned.operands.length with
  | none => .error .refused
  | some operand =>
      if operand.accepts text then
        .ok { scanned with operands := scanned.operands ++ [text] }
      else .error .refused

/-- What a single argument is. -/
inductive Argument where
  | operand
  | terminator
  | option (setting : Setting) (value? : Option String)
  | stop (reason : Stop)
deriving DecidableEq, Repr

/-- Reads an argument that begins with two dashes. -/
def Grammar.long (grammar : Grammar) (name : List Char) : Argument :=
  let value? := match name.dropWhile (· ≠ '=') with
    | [] => none
    | _ :: value => some (String.ofList value)
  let name := String.ofList (name.takeWhile (· ≠ '='))
  match grammar.settings.find? (·.long = name) with
  | some setting => .option setting value?
  | none =>
      if name = "help" && value?.isNone then .stop .help
      else if name = "version" && value?.isNone && grammar.leading then
        .stop .version
      else .stop .refused

/-- Reads an argument that begins with one dash. -/
def Grammar.short (grammar : Grammar) (letter : Char) (value : List Char) :
    Argument :=
  match grammar.settings.find? (·.short? = some letter) with
  | some setting =>
      .option setting (match value with
        | [] => none
        | '=' :: value => some (String.ofList value)
        | value => some (String.ofList value))
  | none =>
      if letter = 'h' then .stop .help
      else if letter = 'V' && grammar.leading then .stop .version
      else .stop .refused

/-- Tells what an argument is. -/
def Grammar.classify (grammar : Grammar) (argument : String) : Argument :=
  match argument.toList with
  | ['-', '-'] => .terminator
  | '-' :: '-' :: name => grammar.long name
  | '-' :: letter :: value => grammar.short letter value
  | _ => .operand

/-- Whether an argument can be the value of the option before it. -/
def isValue (argument : String) : Bool :=
  argument = "-" || !argument.startsWith "-"

/-- Reads arguments one after the other. -/
def Grammar.scan (grammar : Grammar) (scanned : Scanned) :
    List String → Except Stop Scanned
  | [] => .ok scanned
  | argument :: rest =>
      match grammar.classify argument with
      | .operand =>
          if grammar.leading then
            .ok { scanned with operands := argument :: rest }
          else do grammar.scan (← grammar.add scanned argument) rest
      | .terminator =>
          if grammar.leading then .error .refused
          else rest.foldlM grammar.add scanned
      | .option setting (some value) => do
          grammar.scan (← scanned.set setting value) rest
      | .option setting none =>
          match rest with
          | value :: rest =>
              if isValue value then do
                grammar.scan (← scanned.set setting value) rest
              else .error .refused
          | [] => .error .refused
      | .stop reason => .error reason

/-! ## Subcommands -/

/-- The output directory, unless another is asked for. -/
def defaultOutput : String := "stripped"

/-- The verbosity, unless another is asked for. -/
def defaultVerbosity : Nat := 1

/-- The grammar before the subcommand. -/
def outerGrammar : Grammar := ⟨[.verbosity], fun _ => none, true⟩

/-- The grammar after a subcommand with options of its own. -/
def innerGrammar (settings : List Setting)
    (operand? : (position : Nat) → Option Operand) : Grammar :=
  ⟨.verbosity :: settings, operand?, false⟩

/-- A subcommand by its name: its grammar, and the command that its operands and
options make. -/
def subcommand? : String → Option (Grammar × (Scanned → Option Command))
  | "exports" => some (innerGrammar [.jobs] fun _ => some .file, fun scanned =>
      some (.exports scanned.operands))
  | "lookup" => some (innerGrammar [] ([.file, .symbol][·]?), fun scanned =>
      match scanned.operands with
      | [file, symbol] => some (.lookup file symbol)
      | _ => none)
  | "binds" => some (innerGrammar [.limit] ([.file][·]?), fun scanned =>
      match scanned.operands with
      | [file] =>
          let limit? := (scanned.value? .limit).bind count?
          some (.binds file (limit?.getD Bind.defaultLimit))
      | _ => none)
  | "strip-exports" => some (
      innerGrammar [.name, .start, .output, .jobs] fun _ => some .file,
      fun scanned => some (.stripExports {
        files := scanned.operands
        names := scanned.values .name
        start? := scanned.value? .start
        output := (scanned.value? .output).getD defaultOutput }))
  | _ => none

/-- Whether help can be asked for with these words: for the whole tool, for one
of its subcommands, or for asking itself. -/
def isHelpTopic : List String → Bool
  | [] => true
  | [name] => name = "help" || (subcommand? name).isSome
  | _ => false

/-- The files that a command reads. -/
def Command.files : Command → List String
  | .exports files => files
  | .lookup file _ | .binds file _ => [file]
  | .stripExports request => request.files

/-- Reads a command line. -/
def Invocation.parse (arguments : List String) : Except Stop Invocation := do
  let outer ← outerGrammar.scan {} arguments
  match outer.operands with
  | [] => throw .refused
  | name :: rest =>
      match subcommand? name with
      | none =>
          throw (if name = "help" && isHelpTopic rest then .help else .refused)
      | some (grammar, make) =>
          let inner ← grammar.scan {} rest
          let some command := make inner | throw .refused
          if command.files.isEmpty then throw .refused
          let given? := inner.value? .verbosity <|> outer.value? .verbosity
          let verbosity := (given?.bind verbosity?).getD defaultVerbosity
          return ⟨verbosity, command⟩

end Linkedit.Tool
