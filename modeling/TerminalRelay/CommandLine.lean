import TerminalRelay.Config
import TerminalRelay.Replay

/-!
The command line: a subcommand, its options in any order, its operands, and after two dashes the
command to run.
-/

namespace TerminalRelay.CommandLine

inductive UsageError where
  | noCommand
  | unknownCommand (name : String)
  | unknownOption (option : String)
  | missingValue (option : String)
  | badNumber (option value : String)
  | surplusOperand (operand : String)
  | nothingToRun
deriving DecidableEq, Repr

def UsageError.message : UsageError → String
  | noCommand => "a subcommand is required"
  | unknownCommand name => s!"unrecognized subcommand '{name}'"
  | unknownOption option => s!"unexpected argument '{option}' found"
  | missingValue option => s!"a value is required for '{option}' but none was supplied"
  | badNumber option value => s!"invalid value '{value}' for '{option}'"
  | surplusOperand operand => s!"unexpected argument '{operand}' found"
  | nothingToRun => "a command to run is required after '--'"

-- What a subcommand takes: options with a value, and options that are only there or not
structure Grammar where
  valued : List String
  flags : List String

structure Arguments where
  values : List (String × String) := []
  flags : List String := []
  operands : List String := []
  command : List String := []
deriving DecidableEq, Repr

-- An option and the value joined to it by an equals sign
def splitValue (argument : String) : String × Option String :=
  match argument.splitOn "=" with
  | option :: value :: rest => (option, some ("=".intercalate (value :: rest)))
  | _ => (argument, none)

def Arguments.read (grammar : Grammar) (read : Arguments) :
    List String → Except UsageError Arguments
  | [] => .ok read
  | "--" :: command => .ok { read with command }
  | argument :: rest =>
    if ¬ argument.startsWith "--" then
      Arguments.read grammar { read with operands := read.operands ++ [argument] } rest
    else if grammar.flags.contains argument then
      Arguments.read grammar { read with flags := argument :: read.flags } rest
    else
      let (option, joined) := splitValue argument
      if ¬ grammar.valued.contains option then .error (.unknownOption argument)
      else match joined, rest with
        | some value, rest =>
          Arguments.read grammar { read with values := (option, value) :: read.values } rest
        | none, value :: rest =>
          Arguments.read grammar { read with values := (option, value) :: read.values } rest
        | none, [] => .error (.missingValue option)

def Arguments.number (arguments : Arguments) (option : String) (usual : Nat) :
    Except UsageError Nat :=
  match arguments.values.lookup option with
  | none => .ok usual
  | some value =>
    match value.toNat? with
    | some number => .ok number
    | none => .error (.badNumber option value)

-- The one file that may be named
def Arguments.file? (arguments : Arguments) : Except UsageError (Option String) :=
  match arguments.operands with
  | [] => .ok none
  | [file] => .ok (some file)
  | _ :: surplus :: _ => .error (.surplusOperand surplus)

structure BridgeOptions where
  command : List String
  size : String
  term : String
  lineCapacity : Nat
  forward : Bool
  plainLog : Option String
  rawLog : Option String
  dump : Option String
  logLevel : String
deriving DecidableEq, Repr

inductive Invocation where
  | replay (file : Option String) (style : ReplayStyle) (lineCapacity : Nat)
  | encode (file : Option String)
  | bridge (options : BridgeOptions)
deriving DecidableEq, Repr

def usualCapacity : Nat :=
  ({} : Config).lineCapacity

def readReplay (words : List String) : Except UsageError Invocation := do
  let arguments ← Arguments.read
    { valued := ["--line-capacity", "--log-level"], flags := ["--escaped"] } {} words
  let style := if arguments.flags.isEmpty then .lines else .viewers
  return .replay (← arguments.file?) style (← arguments.number "--line-capacity" usualCapacity)

def readEncode (words : List String) : Except UsageError Invocation := do
  let arguments ← Arguments.read { valued := ["--log-level"], flags := [] } {} words
  return .encode (← arguments.file?)

def readBridge (words : List String) : Except UsageError Invocation := do
  let valued :=
    ["--size", "--term", "--line-capacity", "--plain-log", "--raw-log", "--dump", "--log-level"]
  let arguments ← Arguments.read { valued, flags := ["--no-forward"] } {} words
  if arguments.command.isEmpty then throw .nothingToRun
  match arguments.operands with
  | operand :: _ => throw (.surplusOperand operand)
  | [] =>
    return .bridge
      { command := arguments.command
        size := (arguments.values.lookup "--size").getD "80x24"
        term := (arguments.values.lookup "--term").getD "xterm"
        lineCapacity := ← arguments.number "--line-capacity" usualCapacity
        forward := arguments.flags.isEmpty
        plainLog := arguments.values.lookup "--plain-log"
        rawLog := arguments.values.lookup "--raw-log"
        dump := arguments.values.lookup "--dump"
        logLevel := (arguments.values.lookup "--log-level").getD "warn" }

-- The log level may stand before the subcommand too
def read : List String → Except UsageError Invocation
  | [] => .error .noCommand
  | "--log-level" :: level :: name :: words => command name ("--log-level" :: level :: words)
  | name :: words => command name words
where
  command (name : String) (words : List String) : Except UsageError Invocation :=
    match name with
    | "replay" => readReplay words
    | "encode" => readEncode words
    | "bridge" => readBridge words
    | _ => .error (.unknownCommand name)

end TerminalRelay.CommandLine
