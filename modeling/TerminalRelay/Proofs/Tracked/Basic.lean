import TerminalRelay.Terminal.Feed

namespace TerminalRelay

-- A byte or an item, and whether it is the byte being read or stands for it
structure Traced (α : Type) where
  value : α
  current : Bool
deriving DecidableEq, Repr

namespace Traced

variable {α β : Type}

def old (value : α) : Traced α :=
  ⟨value, false⟩

def map (f : α → β) (traced : Traced α) : Traced β :=
  ⟨f traced.value, traced.current⟩

-- How a ring writes: over what the cursor is at, or behind its content
def put (content : List (Traced α)) (cursor : Nat) (traced : Traced α) : List (Traced α) :=
  content.take cursor ++ traced :: content.drop (cursor + 1)

end Traced

-- What can be done with the byte being read
inductive Deed where
  -- it goes into the store of the sequence
  | stored
  -- its encoding goes to the viewers
  | shown
  -- it goes into the line
  | written
deriving DecidableEq, Repr

-- A terminal that keeps account of the byte it is reading. All that the store, the line and the
-- stream hold is here a second time, traced, and what is done with the byte is put down.
structure Tracked where
  terminal : Terminal
  store : List (Traced UInt8)
  line : List (Traced UInt8)
  viewers : List (Traced Transport.Item)
  deeds : List Deed := []

inductive TrackedTurn where
  | settled (outcome : Outcome Tracked)
  | again (tracked : Tracked)

def TrackedTurn.done (s : Tracked) : TrackedTurn :=
  .settled ⟨s, none⟩

namespace Tracked

-- Before a byte is read, nothing is of it.
def ofTerminal (t : Terminal) : Tracked where
  terminal := t
  store := t.held.toList.map .old
  line := t.line.toList.map .old
  viewers := t.viewers.items.toList.map .old

-- For what neither the store, nor the line, nor the stream has a part in
def change (s : Tracked) (f : Terminal → Terminal) : Tracked :=
  { s with terminal := f s.terminal }

def emit (s : Tracked) (items : List (Traced Transport.Item)) : Tracked :=
  if s.terminal.forward then
    let viewers := s.terminal.viewers
    { s with
      terminal := { s.terminal with viewers := { viewers with
        items := viewers.items.appendList (items.map Traced.value) } }
      viewers := s.viewers ++ items
      deeds := s.deeds ++ List.replicate (items.countP Traced.current) .shown }
  else s

def forwardByte (s : Tracked) (byte : UInt8) : Tracked :=
  s.emit [⟨.data byte, true⟩]

-- The first slice of the store
def heldBytes (s : Tracked) : List (Traced UInt8) :=
  s.store.take s.terminal.heldBytes.length

def forwardHeld (s : Tracked) : Tracked :=
  s.emit (s.heldBytes.map (Traced.map .data))

def hold (s : Tracked) (traced : Traced UInt8)
    (room : s.terminal.held.cursor < s.terminal.held.capacity) : Tracked :=
  { s with
    terminal := { s.terminal with held := s.terminal.held.put traced.value room }
    store := Traced.put s.store s.terminal.held.cursor traced
    deeds := s.deeds ++ if traced.current then [.stored] else [] }

def truncate (s : Tracked) (position : Nat) : Tracked :=
  { s with
    terminal := { s.terminal with held := s.terminal.held.truncate position }
    store := s.store.take position }

-- Empties the store
def enter (s : Tracked) (phase : Phase) : Tracked :=
  { s with
    terminal := { s.terminal with held := s.terminal.held.clear, phase }
    store := [] }

def toNormal (s : Tracked) : Tracked :=
  s.enter .normal

def abandon (s : Tracked) : Tracked :=
  if s.terminal.phase = .collecting then s.forwardHeld.toNormal else s.toNormal

-- The ESC at the beginning is the byte being read, or the one that a title was left with.
def beginSequence (s : Tracked) (current : Bool) : Tracked :=
  (s.enter .collecting).hold ⟨Byte.escape, current⟩ s.terminal.held.capacity_pos

def putLine (s : Tracked) (byte : UInt8) : Outcome Tracked :=
  if room : s.terminal.line.cursor < s.terminal.line.capacity then
    ⟨{ s with
      terminal := { s.terminal with line := s.terminal.line.put byte room }
      line := Traced.put s.line s.terminal.line.cursor ⟨byte, true⟩
      deeds := s.deeds ++ [.written] }, none⟩
  else ⟨s, some (.lineTooLong s.terminal.line.capacity)⟩

-- A line that the log refuses stays.
def endLine (s : Tracked) : Outcome Tracked :=
  let ended := s.terminal.endLine
  ⟨{ s with
    terminal := ended.state
    line := if ended.error = none then [] else s.line }, ended.error⟩

def plain (s : Tracked) (byte : UInt8) : Outcome Tracked :=
  let s := s.forwardByte byte
  if byte = Byte.newline then s.endLine
  else if Terminal.isLineByte byte then s.putLine byte
  else ⟨s, none⟩

-- What is left of the line, and the blank that a movement draws
def lineAfter (s : Tracked) : Action → List (Traced UInt8)
  | .eraseToEnd => s.line.take s.terminal.line.cursor
  | .cursorForward _ =>
    if s.terminal.line.cursor < s.terminal.line.size then s.line
    else if s.terminal.line.cursor < s.terminal.line.capacity then
      Traced.put s.line s.terminal.line.cursor (.old Byte.space)
    else s.line
  | .deleteChars count =>
    if count < s.terminal.line.size - s.terminal.line.cursor then
      s.line.take s.terminal.line.cursor ++ s.line.drop (s.terminal.line.cursor + count)
    else s.line
  | _ => s.line

def apply (s : Tracked) (action : Action) : Tracked :=
  { s with
    terminal := s.terminal.apply action
    line := s.lineAfter action }

def showAction (s : Tracked) : Action → Tracked
  | .altScreen mode on => s.emit (((mode.markers on).map .marker).map .old)
  | _ => s.forwardHeld

def complete (s : Tracked) (byte : UInt8) : Scan → Outcome Tracked
  | .pending => ⟨s, none⟩
  | .title => ⟨s.enter (.title false), none⟩
  | .known action => ⟨((s.apply action).showAction action).toNormal, none⟩
  | .unknown =>
    if s.terminal.heldBytes.getLast? = some 'm'.toUInt8 then ⟨s.abandon, none⟩
    else ⟨(s.change fun t => (t.note (.unhandledSequence t.heldBytes)).recordHeld).abandon, none⟩
  | .aborted => (s.truncate (s.terminal.held.size - 1)).abandon.plain byte

def outgrow (s : Tracked) : Tracked :=
  (s.change fun t => t.note (.sequenceTooLong t.held.size)).forwardHeld.change
    ({ · with phase := .overlong })

def collect (s : Tracked) (byte : UInt8) : TrackedTurn :=
  if byte = Byte.escape then .done (s.abandon.beginSequence true)
  else if room : s.terminal.held.cursor < s.terminal.held.capacity then
    let s := s.hold ⟨byte, true⟩ room
    .settled (s.complete byte (Sequence.scan s.terminal.heldBytes))
  else .again s.outgrow

def passThrough (s : Tracked) (byte : UInt8) : TrackedTurn :=
  if 0x20 ≤ byte ∧ byte ≤ 0x3f then .done (s.forwardByte byte)
  else if 0x40 ≤ byte ∧ byte ≤ 0x7e then
    let s := s.forwardByte byte
    .done (if byte = 'm'.toUInt8 then s else s.change Terminal.recordHeld).toNormal
  else .again s.toNormal

def turn (s : Tracked) (byte : UInt8) : TrackedTurn :=
  if byte = Byte.carriageReturn then
    .done ((s.abandon.forwardByte byte).change Terminal.returnCarriage)
  else if byte = Byte.backspace then
    if s.terminal.phase.inTitle then .done s
    else .done ((s.forwardByte byte).change Terminal.stepBack)
  else if byte = Byte.bel then
    if s.terminal.phase.inTitle then .done (s.change ({ · with phase := .normal }))
    else .done (s.abandon.forwardByte byte)
  else match s.terminal.phase with
    | .normal =>
      if byte = Byte.escape then .done (s.beginSequence true) else .settled (s.plain byte)
    | .collecting => s.collect byte
    | .title false =>
      .done (if byte = Byte.escape then s.change ({ · with phase := .title true }) else s)
    | .title true =>
      if byte = Byte.backslash then .done (s.change ({ · with phase := .normal }))
      else (s.beginSequence false).collect byte
    | .overlong => s.passThrough byte

-- One byte from its first activation to its last, each with the phase that it finds
inductive Handles (byte : UInt8) : Tracked → List Phase → Outcome Tracked → Prop
  | last {s : Tracked} {outcome : Outcome Tracked} (hturn : s.turn byte = .settled outcome) :
      Handles byte s [s.terminal.phase] outcome
  | nested {s next : Tracked} {phases : List Phase} {outcome : Outcome Tracked}
      (hturn : s.turn byte = .again next) (h : Handles byte next phases outcome) :
      Handles byte s (s.terminal.phase :: phases) outcome

end Tracked

end TerminalRelay
