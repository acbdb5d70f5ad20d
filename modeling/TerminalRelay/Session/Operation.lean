import TerminalRelay.Session.Snapshot

/-!
The operations on a session as data, so that a history of a session is a list of them.
-/

namespace TerminalRelay

inductive Operation where
  | output (chunk : Bytes)
  | keystrokes (input : Bytes) (pty : Writer)
  | reset
  | attachLogs (plain raw : Option Writer)
  | setForward (on : Bool)
  | takeResize
  | takeDumpRequest
  | snapshot
  | dump

inductive Reply where
  | ended (error : Option SessionError)
  | resize (size : Option WindowSize)
  | dumpRequested (asked : Bool)
  | snapshot (picture : Snapshot)
  | dump (text : String)

-- What an operation answers, what it wrote to the pty and what it had to say
structure Answered where
  reply : Reply
  pty : List Bytes := []
  notices : List Notice := []

def Session.perform (session : Session) : Operation → Session × Answered
  | .output chunk =>
    let outcome := session.output chunk
    (outcome.state,
      { reply := .ended outcome.error, notices := outcome.state.terminal.notices.toList })
  | .keystrokes input pty =>
    let outcome := session.keystrokes input pty
    (outcome.state.1,
      { reply := .ended outcome.error
        pty := outcome.state.2.taken.toList
        notices := outcome.state.1.keys.notices.toList })
  | .reset => (session.reset, { reply := .ended none })
  | .attachLogs plain raw => (session.attachLogs plain raw, { reply := .ended none })
  | .setForward on => (session.setForward on, { reply := .ended none })
  | .takeResize =>
    let (size, session) := session.takeResize
    (session, { reply := .resize size })
  | .takeDumpRequest =>
    let (asked, session) := session.takeDumpRequest
    (session, { reply := .dumpRequested asked })
  | .snapshot => (session, { reply := .snapshot session.snapshot })
  | .dump => (session, { reply := .dump session.dump })

-- Performs operations one after the other, whatever their answers
def Session.performAll (session : Session) : List Operation → Session × List Answered
  | [] => (session, [])
  | operation :: rest =>
    let (session, answered) := session.perform operation
    let (session, answers) := session.performAll rest
    (session, answered :: answers)

end TerminalRelay
