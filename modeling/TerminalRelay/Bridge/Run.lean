import TerminalRelay.Bridge.Basic
import TerminalRelay.Host.Child
import TerminalRelay.Host.LineDiscipline

/-!
A run of the relay on a host, where the pty echoes what is typed and the child is a command.
-/

namespace TerminalRelay

namespace Bridge

-- All of the echo comes before what the child writes.
def child (bridge : Bridge) : Child := fun keystrokes window =>
  let (tty, echo) := Host.LineDiscipline.typeAll {} keystrokes
  let machine : Host.Machine := { input := tty.lines, window }
  let (machine, status) := Host.Child.run bridge.command bridge.term machine
  (echo :: machine.output.toList.map Host.cooked, status.code)

def run (bridge : Bridge) : Report :=
  bridge.runWith bridge.child

end Bridge

end TerminalRelay
