import TerminalRelay.Bridge.Relay
import TerminalRelay.Command
import TerminalRelay.TerminalSize

/-!
A run of the relay from its options to its report, with whatever child there is on the pty. All
keystrokes are typed before the child is looked at.
-/

namespace TerminalRelay

-- A log by the path it is told as, and what opening it comes to
structure LogPlace where
  path : String
  opening : Except Fault Device

-- A writer for the log, or the report that there is none
def LogPlace.writer (place : LogPlace) : Except (List String) Writer :=
  match place.opening with
  | .ok device => .ok { device }
  | .error fault => .error ["Failed to open log " ++ place.path, fault.message]

structure Bridge where
  command : List String
  -- the keystrokes, unless they cannot be read
  keystrokes : Except Fault Bytes
  size : String := "80x24"
  term : String := "xterm"
  lineCapacity : Nat := ({} : Config).lineCapacity
  forward : Bool := true
  plainLog : Option LogPlace := none
  rawLog : Option LogPlace := none
  dump : DumpPlace
  stdout : Device := .accepting
  logLevel : String := "warn"

namespace Bridge

-- What is read from the pty once these keystrokes have reached it, with a window of this size, and
-- the code that the child exits with
abbrev Child := Bytes → WindowSize → List Bytes × Nat

structure Report where
  exit : Exit
  -- what a log got, if it was opened
  plainLog : Option Bytes := none
  rawLog : Option Bytes := none
  dumps : List Dump := []

def keysPieceSize : Nat := 1024

def outputPieceSize : Nat := 4096

def refused (chain : List String) (plainLog : Option Bytes) : Report :=
  { exit := .failure [] chain, plainLog }

-- One output event for each write to the terminal, and more for a write that one read cannot take
def arrivals (writes : List Bytes) : List Event :=
  writes.flatMap fun bytes => (bytes.pieces outputPieceSize).map .output

-- Keystrokes that cannot be read are as good as none
def typed (bridge : Bridge) : List Event :=
  match bridge.keystrokes with
  | .ok bytes => (bytes.pieces keysPieceSize).map .keys
  | .error _ => []

def opening (bridge : Bridge) (relay : Relay) : Relay :=
  match bridge.keystrokes with
  | .ok _ => relay
  | .error fault => relay.log .warn ("stdin read failed: " ++ fault.message)

def conduct (child : Child) (relay : Relay) : Relay × Except Halt Nat :=
  let (writes, code) := child relay.pty.contents relay.window
  match relay.run (arrivals writes) with
  | (relay, some halt) => (relay, .error halt)
  | (relay, none) => (relay, .ok code)

def relayed (bridge : Bridge) (child : Child) (relay : Relay) : Relay × Except Halt Nat :=
  match (bridge.opening relay).run bridge.typed with
  | (relay, some halt) => (relay, .error halt)
  | (relay, none) => conduct child relay

def shown (bridge : Bridge) (journal : List LogLine) : String :=
  let filter := LogFilter.parse bridge.logLevel
  "".intercalate ((journal.filter filter.shows).map LogLine.render)

def report (bridge : Bridge) (relay : Relay) (ending : Except Halt Nat) : Report :=
  let (code, complaint) := match ending with
    | .ok code => (code, "")
    | .error halt => (1, ErrorReport.render halt.chain)
  { exit :=
      { code
        stdout := relay.viewers.contents
        stderr := bridge.shown relay.journal.toList ++ complaint }
    plainLog := relay.session.terminal.plainLog.map Writer.contents
    rawLog := relay.session.terminal.rawLog.map Writer.contents
    dumps := relay.dumps.toList }

def start (bridge : Bridge) (window : WindowSize) (plain raw : Option Writer) : Relay :=
  let session := Session.ofConfig
    { lineCapacity := bridge.lineCapacity, forwardToViewers := bridge.forward }
  { session := session.attachLogs plain raw
    forward := bridge.forward
    viewers := { device := bridge.stdout }
    window
    place := bridge.dump }

-- The size is read first, then the logs are opened, the plain one before the raw one
def runWith (bridge : Bridge) (child : Child) : Report :=
  match WindowSize.parse bridge.size with
  | .error error => refused error.chain none
  | .ok window =>
    match bridge.plainLog.mapM LogPlace.writer with
    | .error chain => refused chain none
    | .ok plain =>
      match bridge.rawLog.mapM LogPlace.writer with
      | .error chain => refused chain (plain.map Writer.contents)
      | .ok raw =>
        let (relay, ending) := bridge.relayed child (bridge.start window plain raw)
        bridge.report relay ending

end Bridge

end TerminalRelay
