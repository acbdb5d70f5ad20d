import TerminalRelay.Host.Shell.Basic

/-!
Running commands. A command that runs a script of its own, be it a shell's or a trap's, is given an
interpreter for it, and these interpreters are nested only so deep.
-/

namespace TerminalRelay.Host.Shell

-- Runs a script in a shell
abbrev Interpreter := Shell → Bytes → Shell

def answer (shell : Shell) (status : Nat) : Shell :=
  { shell with status }

def finish (shell : Shell) (status : Status) : Shell :=
  { shell with ended := some status }

-- What a signal does to the shell itself
def raise (inner : Interpreter) (shell : Shell) (signal : Nat) : Shell :=
  match if signal = Signal.kill then none else shell.traps.lookup signal with
  | some action => if action.isEmpty then shell else inner shell action
  | none => if Signal.spares signal then shell else shell.finish (.killed signal)

-- The signal asked for and the processes it goes to
def killRequest : List Bytes → String × List Bytes
  | first :: rest =>
    if first = Bytes.ofText "-s" then (Bytes.toText (rest.headD []), rest.drop 1)
    else if first.head? = some '-'.toUInt8 then (Bytes.toText (first.drop 1), rest)
    else ("TERM", first :: rest)
  | [] => ("TERM", [])

def kill (inner : Interpreter) (shell : Shell) (arguments : List Bytes) : Shell :=
  let (name, processes) := killRequest arguments
  match Signal.ofText? name with
  | none => (shell.complain ("kill: invalid signal number or name: " ++ name)).answer 2
  | some signal =>
    if processes = [number shell.process] then raise inner (shell.answer 0) signal
    else (shell.complain "kill: No such process").answer 1

def setTrap (shell : Shell) : List Bytes → Shell
  | action :: names =>
    let signals := names.filterMap fun name => Signal.ofText? (Bytes.toText name)
    let kept := shell.traps.filter fun trap => !signals.contains trap.1
    let set := if action = Bytes.ofText "-" then [] else signals.map fun signal => (signal, action)
    { shell with traps := set ++ kept, status := 0 }
  | [] => shell.answer 0

def exit (shell : Shell) : List Bytes → Shell
  | [] => shell.finish (.exited shell.status)
  | code :: _ =>
    match (Bytes.toText code).toNat? with
    | some code => shell.finish (.exited code)
    | none => (shell.complain ("exit: Illegal number: " ++ Bytes.toText code)).finish (.exited 2)

-- Reading a line into variables

-- A byte of a line, and whether a backslash keeps it from having a meaning
abbrev Guarded := UInt8 × Bool

def unguarded (line : Bytes) : List Guarded :=
  line.map fun byte => (byte, false)

def guarded : Bytes → List Guarded
  | [] => []
  | [byte] => if byte = Byte.backslash then [] else [(byte, false)]
  | byte :: next :: rest =>
    if byte = Byte.backslash then (next, true) :: guarded rest
    else (byte, false) :: guarded (next :: rest)

-- Each variable gets a field, and the last one all that is left
def distribute (isBlank : Guarded → Bool) : List Bytes → List Guarded → List (Bytes × Bytes)
  | [], _ => []
  | [name], line =>
    let kept := (((line.dropWhile isBlank).reverse).dropWhile isBlank).reverse
    [(name, kept.map (·.1))]
  | name :: names, line =>
    let line := line.dropWhile isBlank
    let field := line.takeWhile fun byte => !isBlank byte
    (name, field.map (·.1)) :: distribute isBlank names (line.drop field.length)

-- A line that ends in a backslash goes on in the next one
def endsGuarded (line : Bytes) : Bool :=
  (line.reverse.takeWhile fun byte => byte == Byte.backslash).length % 2 == 1

def takeJoined : (limit : Nat) → List Bytes → Bytes × Bool × List Bytes
  | 0, lines => ([], false, lines)
  | limit + 1, lines =>
    match Machine.takeLine lines with
    | (line, true, rest) =>
      if endsGuarded line then
        let (more, complete, rest) := takeJoined limit rest
        (line.dropLast ++ more, complete, rest)
      else (line, true, rest)
    | broken => broken

def read (shell : Shell) (arguments : List Bytes) : Shell :=
  let raw := arguments.head? == some (Bytes.ofText "-r")
  let names := if raw then arguments.drop 1 else arguments
  let (line, complete, left) :=
    if raw then Machine.takeLine shell.machine.input
    else takeJoined (shell.machine.input.length + 1) shell.machine.input
  let line := if raw then unguarded line else guarded line
  let line := line.filter fun byte => byte.1 != 0
  let separators := shell.separators
  let values := distribute (fun byte => !byte.2 && separators.contains byte.1) names line
  let shell := { shell with machine := { shell.machine with input := left } }
  (values.foldl (fun shell entry => shell.assign entry.1 entry.2) shell).answer
    (if complete then 0 else 1)

-- Printing, with escapes resolved in the arguments

def echoEscape (letter : UInt8) : Bytes :=
  if letter = Byte.backslash then [Byte.backslash]
  else if letter = '"'.toUInt8 ∨ letter = 'e'.toUInt8 then [Byte.backslash, letter]
  else Printf.escape letter

-- The bytes up to an escape that cuts the text short, and whether there is one
def echoed : Bytes → Bytes × Bool
  | [] => ([], false)
  | [byte] => ([byte], false)
  | byte :: letter :: rest =>
    if byte ≠ Byte.backslash then
      let (text, cut) := echoed (letter :: rest)
      (byte :: text, cut)
    else if letter = 'c'.toUInt8 then ([], true)
    else
      let (text, cut) := echoed rest
      (echoEscape letter ++ text, cut)

-- An octal escape becomes its byte before the letters are looked at, guarded if it is a backslash
def withoutOctals : (limit : Nat) → Bytes → Bytes
  | 0, text => text
  | limit + 1, byte :: rest =>
    if byte ≠ Byte.backslash then byte :: withoutOctals limit rest
    else match rest with
      | [] => [byte]
      | letter :: after =>
        if (Printf.octalDigit? letter).isNone then
          byte :: letter :: withoutOctals limit after
        else
          let digits := if letter = 0x30 then after else rest
          let octal := (digits.take 3).takeWhile fun digit => (Printf.octalDigit? digit).isSome
          let value := octal.foldl (fun value digit => 8 * value + (digit - 0x30)) (0 : UInt8)
          let shown := if value = Byte.backslash then [value, value] else [value]
          shown ++ withoutOctals limit (digits.drop octal.length)
  | _ + 1, [] => []

def echo (shell : Shell) (arguments : List Bytes) : Shell :=
  let plain := arguments.head? == some (Bytes.ofText "-n")
  let text := Utility.joined (if plain then arguments.drop 1 else arguments)
  let (shown, cut) := echoed (withoutOctals text.length text)
  let shown := if plain ∨ cut then shown else shown ++ [Byte.newline]
  { shell with machine := shell.machine.print shown, status := 0 }

-- A shell of its own for a script
def spawn (inner : Interpreter) (shell : Shell) (script : Bytes) (arguments : List Bytes) :
    Machine × Status :=
  let child : Shell :=
    { machine := shell.machine
      process := shell.process + 1
      bindings := shell.bindings
      arguments
      traps := shell.traps.filter fun trap => trap.2.isEmpty && trap.1 != 0 }
  let child := inner child script
  let status := child.ended.getD (.exited child.status)
  match status, child.traps.lookup 0 with
  | .exited code, some action =>
    let child := inner { child with ended := none, status := code } action
    (child.machine, child.ended.getD (.exited code))
  | _, _ => (child.machine, status)

def shellNames : List String :=
  ["sh", "/bin/sh", "/usr/bin/sh", "dash", "/bin/dash", "/usr/bin/dash"]

-- A program by its name or path
def utility? (name : String) : Option (List Bytes → Utility.Run) :=
  let names := components name
  if name.startsWith "/" then
    if names.dropLast = ["bin"] ∨ names.dropLast = ["usr", "bin"] then
      Utility.find? (names.getLastD "")
    else none
  else Utility.find? name

-- Prints variables, each in a line of its own; one that is not set is a failure
def printVariables (shell : Shell) (names : List Bytes) : Machine × Status :=
  let values := names.filterMap fun name => shell.bindings.lookup name
  (shell.machine.print (values.flatMap fun value => value ++ [Byte.newline]),
    .exited (if values.length = names.length then 0 else 1))

-- Runs a program and takes on its status, if there is such a program
def program? (inner : Interpreter) (shell : Shell) (name : String) (arguments : List Bytes) :
    Option (Machine × Status) :=
  if shellNames.contains name then
    match arguments with
    | option :: script :: rest =>
      if option = Bytes.ofText "-c" then
        some (spawn inner shell script (if rest.isEmpty then [Bytes.ofText name] else rest))
      else some (shell.machine, .exited 2)
    | _ => some (shell.machine, .exited 0)
  else if name = "printenv" then some (shell.printVariables arguments)
  else (utility? name).map fun run => run arguments shell.machine

def external (inner : Interpreter) (shell : Shell) (name : String) (arguments : List Bytes) :
    Shell × Status :=
  match program? inner shell name arguments with
  | some (machine, status) => ({ shell with machine }, status)
  | none =>
    if name.startsWith "/" ∧ Node.ofPath name ≠ .absent then
      (shell.complain (name ++ ": Permission denied"), .exited 126)
    else (shell.complain (name ++ ": not found"), .exited 127)

def invoke (inner : Interpreter) (shell : Shell) (name : String) (arguments : List Bytes) : Shell :=
  match name with
  | ":" | "wait" | "cd" | "export" => shell.answer 0
  | "exit" => shell.exit arguments
  | "kill" => kill inner shell arguments
  | "trap" => shell.setTrap arguments
  | "read" => shell.read arguments
  | "echo" => shell.echo arguments
  | "exec" =>
    match arguments with
    | [] => shell.answer 0
    | program :: arguments =>
      let (shell, status) := external inner shell (Bytes.toText program) arguments
      { shell with traps := [] }.finish status
  | _ =>
    let (shell, status) := external inner shell name arguments
    shell.answer status.code

-- Failing in one of these ends the shell
def isSpecial (name : Option Bytes) : Bool :=
  name.any fun name => [":", "exec", "exit", "trap", "export"].contains (Bytes.toText name)

def execute (inner : Interpreter) (shell : Shell) (command : Command) : Shell :=
  let (assigned, words) := assignments command.words
  let given := words.flatMap shell.fields
  match shell.redirected command.redirections with
  | .error complaint =>
    let failed := (shell.complain complaint).answer 2
    if isSpecial given.head? then failed.finish (.exited 2) else failed
  | .ok machine =>
    let prepared := assigned.foldl (fun shell (entry : Bytes × Word) =>
      shell.assign entry.1 (shell.text entry.2)) shell
    match given with
    | [] => prepared.answer 0
    | name :: arguments =>
      let after := invoke inner { prepared with machine } (Bytes.toText name) arguments
      if name = Bytes.ofText "exec" ∧ arguments.isEmpty then after
      else
        assigned.foldl (fun after entry => after.restore shell entry.1)
          { after with
            machine := reconnected shell.machine after.machine command.redirections }

-- What of a machine's input another command left in a pipe for it
def fed (machine : Machine) (feed : Option Bytes) : Machine :=
  match feed with
  | none => machine
  | some bytes => { machine with input := Machine.linesOf bytes }

-- Runs one command, in a process of its own if others run beside it
def perform (inner : Interpreter) (shell : Shell) (command : Command) : Shell :=
  match command.ending, shell.feed with
  | .awaited, none => execute inner shell command
  | ending, feed =>
    let machine := fed shell.machine feed
    let machine := match ending with
      | .awaited => machine
      | .background => { machine with input := [] }
      | .piped => { machine with prints := .pipe, piped := [] }
    let child := execute inner { shell with machine, feed := none, traps := [] } command
    { shell with
      machine := { child.machine with
        input :=
          if ending = .background ∨ feed.isSome then shell.machine.input else child.machine.input
        prints := shell.machine.prints
        piped := if ending = .piped then shell.machine.piped else child.machine.piped }
      feed := if ending = .piped then some child.machine.piped else none
      status :=
        if ending = .awaited then (child.ended.getD (.exited child.status)).code else 0 }

def meets (shell : Shell) : Condition → Bool
  | .always => true
  | .onSuccess => shell.status == 0
  | .onFailure => shell.status != 0

def performAll (inner : Interpreter) (shell : Shell) (commands : List Command) : Shell :=
  commands.foldl (fun shell command =>
    if shell.ended.isNone ∧ shell.meets command.condition then perform inner shell command
    else shell) shell

def interpreter : (depth : Nat) → Interpreter
  | 0 => fun shell _ => shell
  | depth + 1 => fun shell script =>
    performAll (interpreter depth) shell (Command.parse script)

def depthLimit : Nat := 64

end TerminalRelay.Host.Shell
