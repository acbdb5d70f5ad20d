import TerminalRelay.Byte
import TerminalRelay.Modes

/-!
A child's machine: the terminal it reads lines from and prints to. All keystrokes have been typed
before a child reads, so a read that finds no line left is told the end of the input.
-/

namespace TerminalRelay.Host

-- Where a text goes
inductive Stream where
  | terminal
  | pipe
  | nowhere
deriving DecidableEq, Repr

structure Machine where
  input : List Bytes
  -- what reached the terminal, one entry for each write
  output : Array Bytes := #[]
  window : WindowSize
  prints : Stream := .terminal
  complains : Stream := .terminal
  piped : Bytes := []

inductive Status where
  | exited (code : Nat)
  | killed (signal : Nat)
deriving DecidableEq, Repr

-- Only the low eight bits of an exit code are passed on
def Status.code : Status → Nat
  | exited code => code % 256
  | killed signal => 128 + signal

namespace Machine

-- A text as its lines, each with its newline
def linesOf : Bytes → List Bytes
  | [] => []
  | byte :: rest =>
    match linesOf rest with
    | line :: lines =>
      if byte = Byte.newline then [byte] :: line :: lines else (byte :: line) :: lines
    | [] => [[byte]]

def put (machine : Machine) (bytes : Bytes) : Stream → Machine
  | .terminal =>
    if bytes.isEmpty then machine else { machine with output := machine.output.push bytes }
  | .pipe => { machine with piped := machine.piped ++ bytes }
  | .nowhere => machine

def print (machine : Machine) (bytes : Bytes) : Machine :=
  machine.put bytes machine.prints

def complain (machine : Machine) (complaint : String) : Machine :=
  machine.put (Bytes.ofText complaint) machine.complains

-- What single reads get up to the end of the input, and the lines after that
def untilEnd : List Bytes → List Bytes × List Bytes
  | [] => ([], [])
  | line :: rest =>
    if line.isEmpty then ([], rest)
    else
      let (lines, left) := untilEnd rest
      (line :: lines, left)

-- A line read byte by byte up to its newline, which is dropped, and whether there was one
def takeLine : List Bytes → Bytes × Bool × List Bytes
  | [] => ([], false, [])
  | line :: rest =>
    if line.isEmpty then ([], false, rest)
    else if line.getLast? = some Byte.newline then (line.dropLast, true, rest)
    else
      let (more, complete, left) := takeLine rest
      (line ++ more, complete, left)

end Machine

end TerminalRelay.Host
