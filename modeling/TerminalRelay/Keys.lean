import TerminalRelay.Modes
import TerminalRelay.Notice
import TerminalRelay.Writer

/-!
The keystroke protocol. A byte stands for itself, save that a backslash opens a directive: a key, a
request, or the viewer's window size in eight digits. Keys are gathered and written to the pty in
few writes, never splitting one.
-/

namespace TerminalRelay

inductive CursorKey where
  | up
  | down
  | right
  | left
  | lineEnd
  | lineStart
deriving DecidableEq, Repr

def CursorKey.final : CursorKey → UInt8
  | up => 'A'.toUInt8
  | down => 'B'.toUInt8
  | right => 'C'.toUInt8
  | left => 'D'.toUInt8
  | lineEnd => 'F'.toUInt8
  | lineStart => 'H'.toUInt8

def CursorKey.bytes (key : CursorKey) (appCursor : Bool) : Bytes :=
  [Byte.escape, if appCursor then 'O'.toUInt8 else '['.toUInt8, key.final]

inductive Directive where
  | newline
  | backslash
  | cursor (key : CursorKey)
  | dump
  | keepAlive
  | windowSize
deriving DecidableEq, Repr

-- The byte after the backslash
def Directive.ofByte? (byte : UInt8) : Option Directive :=
  if byte = 'n'.toUInt8 then some newline
  else if byte = '\\'.toUInt8 then some backslash
  else if byte = '^'.toUInt8 then some (cursor .up)
  else if byte = 'v'.toUInt8 then some (cursor .down)
  else if byte = '>'.toUInt8 then some (cursor .right)
  else if byte = '<'.toUInt8 then some (cursor .left)
  else if byte = 'e'.toUInt8 then some (cursor .lineEnd)
  else if byte = 'h'.toUInt8 then some (cursor .lineStart)
  else if byte = 'd'.toUInt8 then some dump
  else if byte = 'N'.toUInt8 then some keepAlive
  else if byte = 'w'.toUInt8 then some windowSize
  else none

-- Four digits that denote a number other than zero
def dimension? (digits : Bytes) : Option Nat :=
  if digits.all Byte.isDigit ∧ 0 < Byte.decimal digits then some (Byte.decimal digits) else none

-- Rows, then columns
def WindowSize.ofField? (field : Bytes) : Option WindowSize := do
  return { rows := ← dimension? (field.take 4), cols := ← dimension? (field.drop 4) }

-- Where a keystroke byte is read; a window size is read whole, whatever its eight bytes are
inductive KeyPhase where
  | idle
  | directive
  | windowSize (field : Bytes)
deriving DecidableEq, Repr

structure KeyDecoder where
  phase : KeyPhase := .idle
  -- decoded and not yet written
  pending : Bytes := []
  resize : Option WindowSize := none
  dumpRequested : Bool := false
  protocolErrors : Nat := 0
  -- of the last call only
  notices : Array Notice := #[]
deriving DecidableEq, Repr

-- A decoder at work: the modes it shares with the output side, and the pty it writes to
structure Typing where
  decoder : KeyDecoder
  modes : Modes
  pty : Writer

namespace Typing

def bufferCapacity : Nat := 256

def windowFieldLength : Nat := 8

def enter (typing : Typing) (phase : KeyPhase) : Typing :=
  { typing with decoder := { typing.decoder with phase } }

def violation (typing : Typing) (notice : Notice) : Typing :=
  { typing with decoder := { typing.decoder with
      protocolErrors := typing.decoder.protocolErrors + 1
      notices := typing.decoder.notices.push notice } }

-- What was gathered is given up whether or not the pty takes all of it
def flush (typing : Typing) : Outcome Typing :=
  let written := typing.pty.deliver .pty typing.decoder.pending
  ⟨{ typing with decoder := { typing.decoder with pending := [] }, pty := written.state },
    written.error⟩

def gather (typing : Typing) (bytes : Bytes) : Typing :=
  { typing with decoder := { typing.decoder with pending := typing.decoder.pending ++ bytes } }

-- Makes room first where the key would not fit beside those gathered
def queue (typing : Typing) (bytes : Bytes) : Outcome Typing :=
  if typing.decoder.pending.length + bytes.length ≤ bufferCapacity then
    ⟨typing.gather bytes, none⟩
  else typing.flush.andThen fun typing => ⟨typing.gather bytes, none⟩

def resizeTo (typing : Typing) (size : WindowSize) : Typing :=
  { typing with
    modes := { typing.modes with window := some size }
    decoder := { typing.decoder with
      resize := some size
      notices := typing.decoder.notices.push (.resizeRequested size) } }

def finishWindowSize (typing : Typing) (field : Bytes) : Typing :=
  match WindowSize.ofField? field with
  | some size => typing.resizeTo size
  | none => typing.violation (.malformedWindowSize field)

def obey (typing : Typing) : Directive → Outcome Typing
  | .newline => typing.queue [Byte.newline]
  | .backslash => typing.queue [Byte.backslash]
  | .cursor key => typing.queue (key.bytes typing.modes.appCursor)
  | .dump => ⟨{ typing with decoder := { typing.decoder with dumpRequested := true } }, none⟩
  | .keepAlive => ⟨typing, none⟩
  | .windowSize => ⟨typing.enter (.windowSize []), none⟩

def step (typing : Typing) (byte : UInt8) : Outcome Typing :=
  match typing.decoder.phase with
  | .idle =>
    if byte = Byte.backslash then ⟨typing.enter .directive, none⟩ else typing.queue [byte]
  | .directive =>
    let typing := typing.enter .idle
    match Directive.ofByte? byte with
    | some directive => typing.obey directive
    | none => ⟨typing.violation (.unknownDirective byte), none⟩
  | .windowSize field =>
    let field := field ++ [byte]
    if field.length < windowFieldLength then ⟨typing.enter (.windowSize field), none⟩
    else ⟨(typing.enter .idle).finishWindowSize field, none⟩

def steps (typing : Typing) : Bytes → Outcome Typing
  | [] => ⟨typing, none⟩
  | byte :: rest =>
    match typing.step byte with
    | ⟨typing, none⟩ => typing.steps rest
    | stopped => stopped

end Typing

namespace KeyDecoder

def takeResize (decoder : KeyDecoder) : Option WindowSize × KeyDecoder :=
  (decoder.resize, { decoder with resize := none })

-- Whether a dump was asked for since the last time this was asked
def takeDumpRequest (decoder : KeyDecoder) : Bool × KeyDecoder :=
  (decoder.dumpRequested, { decoder with dumpRequested := false })

-- One batch of keystrokes, with everything decoded from it written out at its end
def feed (decoder : KeyDecoder) (modes : Modes) (pty : Writer) (input : Bytes) :
    Outcome Typing :=
  let typing : Typing := { decoder := { decoder with notices := #[] }, modes, pty }
  (typing.steps input).andThen Typing.flush

end KeyDecoder

end TerminalRelay
