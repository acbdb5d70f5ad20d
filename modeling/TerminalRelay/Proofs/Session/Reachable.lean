import TerminalRelay.Proofs.Keys.Reachable
import TerminalRelay.Proofs.Terminal.Reachable
import TerminalRelay.Session.Operation

namespace TerminalRelay.Session

-- What a session of this configuration can become, whatever is done with it and whether that
-- succeeds or fails
inductive Reachable (config : Config) : Session → Prop
  | start : Reachable config (.ofConfig config)
  | perform {session : Session} (operation : Operation) (h : Reachable config session) :
      Reachable config (session.perform operation).1

variable {config : Config} {session : Session}

theorem Reachable.terminal (h : session.Reachable config) : session.terminal.Reachable config := by
  induction h with
  | start => exact .start
  | perform operation h ih =>
      cases operation with
      | output chunk => exact ih.feed chunk
      | keystrokes input pty => exact ih.setModes _
      | reset => exact ih.reset.setModes {}
      | attachLogs plain raw => exact (ih.setLogs plain raw).reset.setModes {}
      | setForward on => exact ih.setForward on
      | takeResize => exact ih
      | takeDumpRequest => exact ih
      | snapshot => exact ih
      | dump => exact ih

theorem Reachable.keys (h : session.Reachable config) : session.keys.Reachable := by
  induction h with
  | start => exact .start
  | @perform session operation h ih =>
      cases operation with
      | output chunk => exact ih
      | keystrokes input pty => exact ih.feed session.terminal.modes pty input
      | reset => exact .start
      | attachLogs plain raw => exact .start
      | setForward on => exact ih
      | takeResize => exact ih.takeResize
      | takeDumpRequest => exact ih.takeDumpRequest
      | snapshot => exact ih
      | dump => exact ih

theorem Reachable.performAll (h : session.Reachable config) (operations : List Operation) :
    (session.performAll operations).1.Reachable config := by
  induction operations generalizing session with
  | nil => exact h
  | cons operation rest ih => exact ih (h.perform operation)

end TerminalRelay.Session
