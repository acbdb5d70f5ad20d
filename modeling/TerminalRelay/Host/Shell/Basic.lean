import TerminalRelay.Host.Utility
import TerminalRelay.Host.Shell.Grammar
import TerminalRelay.Host.Shell.Signal

/-!
A shell at work: its machine, its variables and traps, how words become fields, and where a
command's redirections lead.
-/

namespace TerminalRelay.Host

structure Shell where
  machine : Machine
  process : Nat
  -- variables with their values
  bindings : List (Bytes × Bytes) := []
  -- the name of the script, then its arguments
  arguments : List Bytes := []
  -- of the last command
  status : Nat := 0
  -- actions by signal; an empty one ignores its signal, and number zero is the shell's end
  traps : List (Nat × Bytes) := []
  -- what the last command piped to the next one
  feed : Option Bytes := none
  ended : Option Status := none

namespace Shell

def blanks : Bytes := [Byte.space, Byte.tab, Byte.newline]

def number (n : Nat) : Bytes := Bytes.ofText (toString n)

def value (shell : Shell) (name : Bytes) : Bytes :=
  if name = ['$'.toUInt8] then number shell.process
  else if name = ['?'.toUInt8] then number shell.status
  else if name = ['#'.toUInt8] then number (shell.arguments.length - 1)
  else if name.all Byte.isDigit then shell.arguments.getD (Byte.decimal name) []
  else (shell.bindings.lookup name).getD []

def separators (shell : Shell) : Bytes :=
  (shell.bindings.lookup (Bytes.ofText "IFS")).getD blanks

def assign (shell : Shell) (name value : Bytes) : Shell :=
  { shell with
    bindings := (name, value) :: shell.bindings.filter fun entry => entry.1 != name }

-- Gives a variable back the value it had in an earlier shell
def restore (shell : Shell) (earlier : Shell) (name : Bytes) : Shell :=
  match earlier.bindings.lookup name with
  | some value => shell.assign name value
  | none => { shell with bindings := shell.bindings.filter fun entry => entry.1 != name }

-- Fields that are finished, and the one that is being put together
structure Fields where
  finished : List Bytes := []
  current : Option Bytes := none

namespace Fields

def append (fields : Fields) (bytes : Bytes) : Fields :=
  { fields with current := some (fields.current.getD [] ++ bytes) }

def split (fields : Fields) : Fields :=
  { finished := fields.finished ++ fields.current.toList }

-- A value that stands outside quotes is cut at its separators
def appendSplit (separators : Bytes) (fields : Fields) (value : Bytes) : Fields :=
  value.foldl (fun fields byte =>
    if separators.contains byte then fields.split else fields.append [byte]) fields

end Fields

-- The fields that a word stands for: none if all of it is an empty value outside quotes
def fields (shell : Shell) (word : Word) : List Bytes :=
  (word.foldl (fun (fields : Fields) part =>
    match part with
    | .text bytes _ => fields.append bytes
    | .variable name quoted =>
      if quoted then fields.append (shell.value name)
      else fields.appendSplit shell.separators (shell.value name)) {}).split.finished

-- A word where it cannot become several fields
def text (shell : Shell) (word : Word) : Bytes :=
  word.flatMap fun
    | .text bytes _ => bytes
    | .variable name _ => shell.value name

-- A word that sets a variable, as its name and what is set
def assignment? : Word → Option (Bytes × Word)
  | .text bytes false :: rest =>
    let name := bytes.takeWhile Lexer.isNameByte
    match bytes.drop name.length with
    | equals :: start =>
      if equals = '='.toUInt8 ∧ name ≠ [] ∧ ¬ Byte.isDigit (name.headD 0) then
        some (name, .text start false :: rest)
      else none
    | [] => none
  | _ => none

-- The assignments that a command begins with, and its other words
def assignments : List Word → List (Bytes × Word) × List Word
  | [] => ([], [])
  | word :: rest =>
    match assignment? word with
    | some assignment =>
      let (assigned, words) := assignments rest
      (assignment :: assigned, words)
    | none => ([], word :: rest)

def complain (shell : Shell) (complaint : String) : Shell :=
  { shell with machine := shell.machine.complain ("sh: 1: " ++ complaint ++ "\n") }

def terminalPath : String := "/dev/tty"

-- What a file keeps a shell from doing with it, in the shell's words
def refusal (path : String) (reads : Bool) : Option String :=
  if path = terminalPath then none
  else match Node.ofPath path, reads with
    | .absent, true => some s!"cannot open {path}: No such file"
    | .misplaced, true => some s!"cannot open {path}: Not a directory"
    | .absent, false =>
      if creatable path then none else some s!"cannot create {path}: Directory nonexistent"
    | .misplaced, false => some s!"cannot create {path}: Not a directory"
    | .directory, false => some s!"cannot create {path}: Is a directory"
    | _, _ => none

def connect (machine : Machine) (redirection : Redirection) (path : String) : Machine :=
  let stream := if path = terminalPath then .terminal else .nowhere
  if redirection.reads then
    if path = terminalPath then machine else { machine with input := [] }
  else if redirection.descriptor = 1 then { machine with prints := stream }
  else if redirection.descriptor = 2 then { machine with complains := stream }
  else machine

-- The machine as a command's redirections leave it, unless one of them cannot be had
def redirected (shell : Shell) (redirections : List Redirection) : Except String Machine :=
  redirections.foldlM (fun machine redirection =>
    let path := String.fromUTF8? ⟨(shell.text redirection.target).toArray⟩ |>.getD ""
    match refusal path redirection.reads with
    | some complaint => .error complaint
    | none => .ok (connect machine redirection path)) shell.machine

-- The machine after a command, with its streams where they were before
def reconnected (before after : Machine) (redirections : List Redirection) : Machine :=
  { after with
    input := if redirections.any (·.reads) then before.input else after.input
    prints := before.prints
    complains := before.complains }

end Shell

end TerminalRelay.Host
