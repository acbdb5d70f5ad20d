import TerminalRelay.Byte

/-!
Signals by name and number, and what they do to a process that has not provided for them.
-/

namespace TerminalRelay.Host.Signal

def names : List String :=
  ["EXIT", "HUP", "INT", "QUIT", "ILL", "TRAP", "ABRT", "BUS", "FPE", "KILL", "USR1", "SEGV",
    "USR2", "PIPE", "ALRM", "TERM", "STKFLT", "CHLD", "CONT", "STOP", "TSTP", "TTIN", "TTOU",
    "URG", "XCPU", "XFSZ", "VTALRM", "PROF", "WINCH", "IO", "PWR", "SYS"]

-- A signal's number from its name, with or without SIG before it, or from its digits
def ofText? (text : String) : Option Nat :=
  match text.toNat? with
  | some number => if number ≤ 64 then some number else none
  | none => names.findIdx? fun name => text == name || text == "SIG" ++ name

def kill : Nat := 9

-- Number zero only asks whether the process is there; the others here are ignored or stop it
def spares (number : Nat) : Bool :=
  [0, 17, 18, 19, 20, 21, 22, 23, 28].contains number

end TerminalRelay.Host.Signal
