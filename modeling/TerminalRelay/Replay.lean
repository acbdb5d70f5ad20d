import TerminalRelay.Command
import TerminalRelay.Session.Basic

/-!
Replaying raw output: it is read as if it came from a child, and what it amounts to is printed,
either as lines or as the stream that viewers would have got.
-/

namespace TerminalRelay

inductive ReplayStyle where
  | lines
  | viewers
deriving DecidableEq, Repr

structure Replay where
  style : ReplayStyle
  session : Session
  -- standard output for the viewer stream; lines go to it as the session's plain log
  screen : Writer

namespace Replay

def start (style : ReplayStyle) (lineCapacity : Nat) (stdout : Writer) : Replay :=
  let session := Session.ofConfig { lineCapacity, forwardToViewers := style = .viewers }
  match style with
  | .lines => { style, session := session.attachLogs (some stdout) none, screen := {} }
  | .viewers => { style, session, screen := stdout }

def display (replay : Replay) : Outcome Replay :=
  match replay.style with
  | .lines => ⟨replay, none⟩
  | .viewers =>
    (replay.screen.deliver .viewers replay.session.terminal.viewers.bytes).map fun screen =>
      { replay with screen }

def read (replay : Replay) (piece : Bytes) : Outcome Replay :=
  ((replay.session.output piece).map fun session => { replay with session }).andThen display

def readAll (replay : Replay) : List Bytes → Outcome Replay
  | [] => ⟨replay, none⟩
  | piece :: rest =>
    match replay.read piece with
    | ⟨replay, none⟩ => replay.readAll rest
    | stopped => stopped

-- A last line without a newline gets one, lest it be lost
def finish (replay : Replay) : Outcome Replay :=
  if replay.style = .lines ∧ ¬ replay.session.terminal.line.isEmpty then
    (replay.session.output [Byte.newline]).map fun session => { replay with session }
  else ⟨replay, none⟩

def run (replay : Replay) (pieces : List Bytes) : Outcome Replay :=
  (replay.readAll pieces).andThen finish

-- Everything on standard output
def printed (replay : Replay) : Bytes :=
  match replay.style with
  | .lines => (replay.session.terminal.plainLog.map Writer.contents).getD []
  | .viewers => replay.screen.contents

def pieceSize : Nat := 4096

-- The whole command
def command (source : Source) (style : ReplayStyle) (lineCapacity : Nat) (stdout : Device) : Exit :=
  match source.bytes "raw log" with
  | .error chain => .failure [] chain
  | .ok bytes =>
    let outcome := (start style lineCapacity { device := stdout }).run (bytes.pieces pieceSize)
    match outcome.error with
    | none => .success outcome.state.printed
    | some error => .failure outcome.state.printed error.chain

end Replay

end TerminalRelay
