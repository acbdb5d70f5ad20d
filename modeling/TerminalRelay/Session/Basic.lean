import TerminalRelay.Keys
import TerminalRelay.Terminal.Feed

/-!
A session: one terminal and the decoder of its viewer's keystrokes. They share the modes and
nothing else.
-/

namespace TerminalRelay

structure Session where
  terminal : Terminal
  keys : KeyDecoder := {}

namespace Session

def ofConfig (config : Config) : Session where
  terminal := .ofConfig config

-- Everything but the forwarding and the logs
def reset (session : Session) : Session where
  terminal := { session.terminal.reset with modes := {} }
  keys := {}

def attachLogs (session : Session) (plain raw : Option Writer) : Session :=
  { session with terminal := session.terminal.setLogs plain raw }.reset

def setForward (session : Session) (on : Bool) : Session :=
  { session with terminal := session.terminal.setForward on }

def output (session : Session) (chunk : Bytes) : Outcome Session :=
  (session.terminal.feed chunk).map fun terminal => { session with terminal }

-- Decodes keystrokes and writes what they mean to the pty, which is given back
def keystrokes (session : Session) (input : Bytes) (pty : Writer) : Outcome (Session × Writer) :=
  (session.keys.feed session.terminal.modes pty input).map fun typing =>
    ({ terminal := { session.terminal with modes := typing.modes }, keys := typing.decoder },
      typing.pty)

def takeResize (session : Session) : Option WindowSize × Session :=
  let (size, keys) := session.keys.takeResize
  (size, { session with keys })

def takeDumpRequest (session : Session) : Bool × Session :=
  let (asked, keys) := session.keys.takeDumpRequest
  (asked, { session with keys })

end Session

end TerminalRelay
