import TerminalRelay.Host.Shell.Run

/-!
Starting a command on a machine as the relay's child.
-/

namespace TerminalRelay.Host.Child

def processNumber : Nat := 1000

-- Why there is no running a name. Only a name with a slash is looked up as a path.
def startFault (name : String) : Fault :=
  match Node.ofPath name with
  | .directory | .nullDevice | .fullDevice => .accessDenied
  | .misplaced => .inNoDirectory
  | .absent => .noSuchFile

def environment (term : String) : List (Bytes × Bytes) :=
  [(Bytes.ofText "TERM", Bytes.ofText term), (Bytes.ofText "LC_ALL", Bytes.ofText "C")]

-- Runs the command to its end; one that cannot be started says so on the terminal
def run (command : List String) (term : String) (machine : Machine) : Machine × Status :=
  match command with
  | [] => (machine, .exited 127)
  | name :: arguments =>
    let shell : Shell := { machine, process := processNumber, bindings := environment term }
    match Shell.program? (Shell.interpreter Shell.depthLimit) shell name
        (arguments.map Bytes.ofText) with
    | some ended => ended
    | none =>
      let cause := (startFault name).message
      (machine.complain s!"ptyrelay: failed to start {name}: exec failed: {cause}\n", .exited 127)

end TerminalRelay.Host.Child
