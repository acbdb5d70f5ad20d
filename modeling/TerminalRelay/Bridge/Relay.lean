import TerminalRelay.Journal
import TerminalRelay.Session.Snapshot

/-!
The relay between a pty and its viewers, as steps over what arrives: keystrokes from the viewers,
and output from the pty. An error ends the run; one of the session's own leaves a dump first.
-/

namespace TerminalRelay

-- A dump, and what kept it from being written if anything did
structure Dump where
  text : String
  fault : Option Fault := none
deriving DecidableEq, Repr

-- Where dumps go: the path as it is told, and what keeps it from being written to
structure DumpPlace where
  path : String
  fault : Option Fault := none
deriving DecidableEq, Repr

inductive Event where
  | keys (chunk : Bytes)
  | output (chunk : Bytes)
deriving DecidableEq, Repr

-- What ends a run before the child does
inductive Halt where
  | session (error : SessionError)
  | viewers (error : SessionError)
deriving DecidableEq, Repr

def Halt.chain : Halt → List String
  | session error => "Session terminated" :: error.chain
  | viewers error => error.chain

structure Relay where
  session : Session
  forward : Bool := true
  pty : Writer := {}
  viewers : Writer := {}
  -- the size the pty reports to the child
  window : WindowSize
  place : DumpPlace
  dumps : Array Dump := #[]
  journal : Array LogLine := #[]

namespace Relay

def log (relay : Relay) (level : Level) (text : String) : Relay :=
  { relay with journal := relay.journal.push { level, origin := "ptyrelay::bridge", text } }

def dumpFailure (place : DumpPlace) (fault : Fault) : String :=
  "Failed to write dump " ++ place.path ++ ": " ++ fault.message

-- Dumps the session as it is, or tries to
def dump (relay : Relay) : Relay :=
  let dump : Dump := { text := relay.session.dump, fault := relay.place.fault }
  { relay with dumps := relay.dumps.push dump }

def dumpOnRequest (relay : Relay) : Relay :=
  match relay.place.fault with
  | none =>
    relay.dump.log .warn
      (LogLine.detailed "diagnostic dump written" [("dump", relay.place.path)])
  | some fault =>
    relay.dump.log .warn ("diagnostic dump failed: " ++ dumpFailure relay.place fault)

def fail (relay : Relay) (error : SessionError) : Relay × Option Halt :=
  let told := "session terminated: " ++ error.message
  let text := match relay.place.fault with
    | none => LogLine.detailed told [("dump", relay.place.path)]
    | some fault => told ++ " (dump failed: " ++ dumpFailure relay.place fault ++ ")"
  (relay.dump.log .error text, some (.session error))

def applyResize (relay : Relay) : Relay :=
  let (size, session) := relay.session.takeResize
  { relay with session, window := size.getD relay.window }

def answerDumpRequest (relay : Relay) : Relay :=
  let (asked, session) := relay.session.takeDumpRequest
  let relay := { relay with session }
  if asked then relay.dumpOnRequest else relay

def type (relay : Relay) (chunk : Bytes) : Relay × Option Halt :=
  let outcome := relay.session.keystrokes chunk relay.pty
  let (session, pty) := outcome.state
  let relay := { relay with
    session
    pty
    journal := relay.journal ++ session.keys.notices.map Notice.logLine }
  match outcome.error with
  | some error => relay.fail error
  | none => (relay.applyResize.answerDumpRequest, none)

def display (relay : Relay) : Relay × Option Halt :=
  if relay.forward then
    let delivered := relay.viewers.deliver .viewers relay.session.terminal.viewers.bytes
    ({ relay with viewers := delivered.state }, delivered.error.map .viewers)
  else (relay, none)

def receive (relay : Relay) (chunk : Bytes) : Relay × Option Halt :=
  let outcome := relay.session.output chunk
  let relay := { relay with
    session := outcome.state
    journal := relay.journal ++ outcome.state.terminal.notices.map Notice.logLine }
  match outcome.error with
  | some error => relay.fail error
  | none => relay.display

def step (relay : Relay) : Event → Relay × Option Halt
  | .keys chunk => relay.type chunk
  | .output chunk => relay.receive chunk

-- Nothing that arrives after a halt is looked at
def run (relay : Relay) : List Event → Relay × Option Halt
  | [] => (relay, none)
  | event :: rest =>
    match relay.step event with
    | (relay, none) => relay.run rest
    | halted => halted

end Relay

end TerminalRelay
