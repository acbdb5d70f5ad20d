import TerminalRelay.ByteRing.Basic
import TerminalRelay.Config
import TerminalRelay.Notice
import TerminalRelay.Sequence
import TerminalRelay.Unhandled
import TerminalRelay.Writer

/-!
The terminal as the relay sees it: the line being rebuilt from the child's output, the escape
sequence being collected, and the copy of the output that goes to the viewers.
-/

namespace TerminalRelay

-- Where a byte of output is read
inductive Phase where
  | normal
  -- a sequence is being collected
  | collecting
  -- inside a title, dropping bytes until BEL or `ESC \`
  | title (sawEscape : Bool)
  -- the sequence outgrew its store; its bytes pass until the final one
  | overlong
deriving DecidableEq, Repr

def Phase.inTitle : Phase → Bool
  | title _ => true
  | _ => false

-- What one call of `Terminal.feed` sends to the viewers; a call that succeeds ends it
structure ViewerStream where
  items : Array Transport.Item := #[]
  ended : Bool := false
deriving DecidableEq, Repr

def ViewerStream.bytes (stream : ViewerStream) : Bytes :=
  Transport.render stream.items.toList ++ if stream.ended then [Byte.newline] else []

structure Terminal where
  modes : Modes := {}
  line : ByteRing
  held : ByteRing
  phase : Phase := .normal
  forward : Bool
  unhandled : History
  plainLog : Option Writer := none
  rawLog : Option Writer := none
  -- of the last call only
  viewers : ViewerStream := {}
  notices : Array Notice := #[]

namespace Terminal

-- The shortest stores that make sense: a line of one byte and a sequence of eight
def ofConfig (config : Config) : Terminal where
  line := .empty (max config.lineCapacity 1) (by omega)
  held := .empty (max config.escapeCapacity 8) (by omega)
  forward := config.forwardToViewers
  unhandled := { capacity := config.debugCapacity }

-- Everything but the modes, the forwarding and the logs
def reset (t : Terminal) : Terminal :=
  { t with
    line := t.line.reset
    held := t.held.reset
    phase := .normal
    unhandled := t.unhandled.clear
    viewers := {}
    notices := #[] }

def setLogs (t : Terminal) (plain raw : Option Writer) : Terminal :=
  { t with plainLog := plain, rawLog := raw }

def setForward (t : Terminal) (on : Bool) : Terminal :=
  { t with forward := on }

def note (t : Terminal) (notice : Notice) : Terminal :=
  { t with notices := t.notices.push notice }

def emit (t : Terminal) (items : List Transport.Item) : Terminal :=
  if t.forward then
    { t with viewers := { t.viewers with items := t.viewers.items.appendList items } }
  else t

def forwardByte (t : Terminal) (byte : UInt8) : Terminal :=
  t.emit [.data byte]

-- The sequence being collected. The store never wraps, so its first slice is all of it
def heldBytes (t : Terminal) : Bytes :=
  t.held.slices.1

def forwardHeld (t : Terminal) : Terminal :=
  t.emit (t.heldBytes.map .data)

-- Leaves the sequence that was being collected, if any
def toNormal (t : Terminal) : Terminal :=
  { t with held := t.held.clear, phase := .normal }

-- An open sequence still reaches the viewers, an open title does not
def abandon (t : Terminal) : Terminal :=
  if t.phase = .collecting then t.forwardHeld.toNormal else t.toNormal

def beginSequence (t : Terminal) : Terminal :=
  { t with
    held := t.held.clear.put Byte.escape t.held.capacity_pos
    phase := .collecting }

-- The sequence just completed goes on record
def recordHeld (t : Terminal) : Terminal :=
  { t with unhandled := t.unhandled.push t.heldBytes }

end Terminal

end TerminalRelay
