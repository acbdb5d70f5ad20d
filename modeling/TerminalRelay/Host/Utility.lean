import TerminalRelay.Host.Machine
import TerminalRelay.Host.Path
import TerminalRelay.Host.Printf

/-!
The utilities that a child can be, or that a shell can run as commands.
-/

namespace TerminalRelay.Host.Utility

abbrev Run := Machine → Machine × Status

def finish (machine : Machine) : Machine × Status :=
  (machine, .exited 0)

def fail (machine : Machine) (complaint : String) : Machine × Status :=
  (machine.complain complaint, .exited 1)

def printText (machine : Machine) (text : String) : Machine × Status :=
  finish (machine.print (Bytes.ofText text))

def printf : List Bytes → Run
  | [], machine =>
    fail machine "printf: missing operand\nTry 'printf --help' for more information.\n"
  | format :: arguments, machine =>
    let words := if format = Bytes.ofText "--" then arguments else format :: arguments
    finish (machine.print (Printf.print (words.headD []) (words.drop 1)))

-- Arguments in one line, with blanks between them
def joined (arguments : List Bytes) : Bytes :=
  [Byte.space].intercalate arguments

def echo : List Bytes → Run
  | option :: arguments, machine =>
    if option = Bytes.ofText "-n" then finish (machine.print (joined arguments))
    else finish (machine.print (joined (option :: arguments) ++ [Byte.newline]))
  | [], machine => finish (machine.print [Byte.newline])

def numbers (first : Int) (step : Int) (count : Nat) : Bytes :=
  (List.range count).flatMap fun (i : Nat) =>
    Bytes.ofText (toString (first + step * (i : Int))) ++ [Byte.newline]

-- How many numbers there are from `first` on in steps, none beyond `last`
def countTo (first step last : Int) : Nat :=
  if step = 0 then 0 else ((last - first) / step + 1).toNat

def seq (arguments : List Bytes) : Run := fun machine =>
  match arguments.map Printf.integer with
  | [last] => finish (machine.print (numbers 1 1 (countTo 1 1 last)))
  | [first, last] => finish (machine.print (numbers first 1 (countTo first 1 last)))
  | [first, step, last] => finish (machine.print (numbers first step (countTo first step last)))
  | _ => fail machine "seq: missing operand\nTry 'seq --help' for more information.\n"

-- All that is left to read, as it was read
def takeInput (machine : Machine) : List Bytes × Machine :=
  let (lines, input) := Machine.untilEnd machine.input
  (lines, { machine with input })

def copyInput (machine : Machine) : Machine :=
  let (lines, machine) := takeInput machine
  lines.foldl Machine.print machine

def reason : FaultKind → String
  | .isADirectory => "Is a directory"
  | .notADirectory => "Not a directory"
  | _ => "No such file or directory"

-- Copies a file, or the input where the name is a dash
def copyFile (state : Machine × Status) (name : Bytes) : Machine × Status :=
  let (machine, status) := state
  if name = ['-'.toUInt8] then (copyInput machine, status)
  else match sourceAt (Bytes.toText name) with
    | .content bytes => (machine.print bytes, status)
    | .unopened _ fault | .unreadable fault =>
      fail machine ("cat: " ++ Bytes.toText name ++ ": " ++ reason fault.kind ++ "\n")

def cat (names : List Bytes) : Run := fun machine =>
  if names.isEmpty then finish (copyInput machine)
  else names.foldl copyFile (finish machine)

def newlines (text : Bytes) : Nat :=
  text.count Byte.newline

def isBlank (byte : UInt8) : Bool :=
  byte == Byte.space || (Byte.tab ≤ byte && byte ≤ Byte.carriageReturn)

-- Words are counted by their first bytes
def words (text : Bytes) : Nat :=
  (text.foldl (fun (count, within) byte =>
    if isBlank byte then (count, false)
    else (if within then count else count + 1, true)) (0, false)).1

-- Three counts stand in columns, one alone does not
def column (count : Nat) : String :=
  "".pushn ' ' (7 - (toString count).length) ++ toString count

def wc (options : List Bytes) : Run := fun machine =>
  let (lines, machine) := takeInput machine
  let text := lines.flatten
  let tallies := [newlines text, words text, text.length]
  match options.map Bytes.toText with
  | [] => printText machine (" ".intercalate (tallies.map column) ++ "\n")
  | ["-l"] => printText machine s!"{newlines text}\n"
  | ["-w"] => printText machine s!"{words text}\n"
  | ["-c"] => printText machine s!"{text.length}\n"
  | _ => fail machine "wc: invalid option\n"

-- Lines up to a number, and those left. Nothing is read after the last of them
def firstLines : Nat → List Bytes → Bytes × List Bytes
  | _, [] => ([], [])
  | 0, lines => ([], lines)
  | limit + 1, line :: rest =>
    if line.isEmpty then ([], rest)
    else
      let limit := if line.getLast? = some Byte.newline then limit else limit + 1
      let (text, left) := firstLines limit rest
      (line ++ text, left)

-- Bytes up to a number, read line by line
def firstBytes : Nat → List Bytes → Bytes × List Bytes
  | _, [] => ([], [])
  | 0, lines => ([], lines)
  | limit, line :: rest =>
    if line.isEmpty then ([], rest)
    else
      let (text, left) := firstBytes (limit - line.length) rest
      (line.take limit ++ text, left)

-- The number of lines or bytes asked for, in one argument or two; ten lines where there is none
def extent (arguments : List Bytes) : Bool × Nat :=
  match arguments with
  | [option, number] => (option == Bytes.ofText "-c", (Printf.integer number).toNat)
  | [option] =>
    let unit := option.take 2
    let bytes := unit == Bytes.ofText "-c"
    let digits := option.drop (if bytes || unit == Bytes.ofText "-n" then 2 else 1)
    (bytes, (Printf.integer digits).toNat)
  | _ => (false, 10)

def head (arguments : List Bytes) : Run := fun machine =>
  let (bytes, limit) := extent arguments
  let (text, input) :=
    if bytes then firstBytes limit machine.input else firstLines limit machine.input
  finish ({ machine with input }.print text)

def tail (arguments : List Bytes) : Run := fun machine =>
  let (bytes, limit) := extent arguments
  let (lines, machine) := takeInput machine
  let text := lines.flatten
  if bytes then finish (machine.print (text.drop (text.length - limit)))
  else finish (machine.print (lines.drop (lines.length - limit)).flatten)

def stty : List Bytes → Run
  | [request], machine =>
    if request = Bytes.ofText "size" then
      printText machine s!"{machine.window.rows} {machine.window.cols}\n"
    else finish machine
  | _, machine => finish machine

def terminalName : String := "/dev/pts/0"

def holds : List Bytes → Bool
  | [text] => !text.isEmpty
  | [test, text] =>
    if test = Bytes.ofText "-n" then !text.isEmpty
    else if test = Bytes.ofText "-z" then text.isEmpty
    else if test = Bytes.ofText "-t" then true
    else if test = Bytes.ofText "!" then text.isEmpty
    else false
  | [left, test, right] =>
    let first := Printf.integer left
    let second := Printf.integer right
    match Bytes.toText test with
    | "=" => left == right
    | "!=" => left != right
    | "-eq" => first == second
    | "-ne" => first != second
    | "-lt" => first < second
    | "-le" => first ≤ second
    | "-gt" => second < first
    | "-ge" => second ≤ first
    | _ => false
  | _ => false

def test (arguments : List Bytes) : Run := fun machine =>
  (machine, .exited (if holds arguments then 0 else 1))

-- The utilities on the machine other than the shell
def find? (name : String) : Option (List Bytes → Run) :=
  match name with
  | "true" | "sleep" => some fun _ => finish
  | "false" => some fun _ machine => (machine, .exited 1)
  | "printf" => some printf
  | "echo" => some echo
  | "seq" => some seq
  | "cat" => some cat
  | "wc" => some wc
  | "head" => some head
  | "tail" => some tail
  | "stty" => some stty
  | "tty" => some fun _ machine => printText machine (terminalName ++ "\n")
  | "test" => some test
  | "[" => some fun arguments => test arguments.dropLast
  | _ => none

end TerminalRelay.Host.Utility
