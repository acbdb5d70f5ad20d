import TerminalRelay.Proofs.Checked.Ring
import TerminalRelay.Terminal.Feed

namespace TerminalRelay

namespace Checked

def hexTable : Array UInt8 :=
  #[0x30, 0x31, 0x32, 0x33, 0x34, 0x35, 0x36, 0x37, 0x38, 0x39, 0x61, 0x62, 0x63, 0x64, 0x65, 0x66]

def encodeByte (byte : UInt8) : Except Breach Bytes :=
  if Transport.passes byte then return [byte]
  else do
    let high ← read hexTable (byte >>> 4).toNat
    let low ← read hexTable (byte &&& 0x0f).toNat
    return [Byte.backslash, high, low]

def renderItem : Transport.Item → Except Breach Bytes
  | .data byte => encodeByte byte
  | .marker m => return [Byte.backslash, m.letters.1, m.letters.2]

def render : List Transport.Item → Except Breach Bytes
  | [] => return []
  | item :: rest => do return (← renderItem item) ++ (← render rest)

-- An entry is two texts, each of them told by three words of eight bytes.
def entrySize : Nat := 48

-- There is room for all entries from the start.
def openHistory (capacity : Nat) : Except Breach History := do
  allocate capacity entrySize
  return { capacity }

-- The oldest entry is taken out where there is no room, and there is to be one then.
def record (history : History) (raw : Bytes) : Except Breach History :=
  if history.capacity = 0 then return { history with dropped := history.dropped + 1 }
  else if history.entries.length < history.capacity then
    return { history with entries := history.entries ++ [⟨raw⟩] }
  else
    match history.entries with
    | [] => .error .index
    | _ :: kept =>
      return { history with entries := kept ++ [⟨raw⟩], dropped := history.dropped + 1 }

-- A line in its two pieces, and its newline
def writeLine (log : Writer) (first second : Bytes) : Except Breach (Outcome Writer) := do
  onward (← deliver log .plainLog first) fun log => do
    onward (← deliver log .plainLog second) fun log => deliver log .plainLog [Byte.newline]

end Checked

-- A terminal about whose rings nothing is known; what it sends to the viewers is bytes already.
structure BareTerminal where
  modes : Modes
  line : BareRing
  held : BareRing
  phase : Phase
  forward : Bool
  unhandled : History
  plainLog : Option Writer
  rawLog : Option Writer
  escaped : Bytes
  notices : Array Notice

inductive BareTurn where
  | settled (outcome : Outcome BareTerminal)
  | again (terminal : BareTerminal)

namespace BareTerminal

def ofConfig (config : Config) : Except Breach BareTerminal := do
  return {
    modes := {}
    line := ← BareRing.new (max config.lineCapacity 1)
    held := ← BareRing.new (max config.escapeCapacity 8)
    phase := .normal
    forward := config.forwardToViewers
    unhandled := ← Checked.openHistory config.debugCapacity
    plainLog := none
    rawLog := none
    escaped := []
    notices := #[] }

def reset (t : BareTerminal) : BareTerminal :=
  { t with
    line := t.line.reset
    held := t.held.reset
    phase := .normal
    unhandled := t.unhandled.clear
    escaped := []
    notices := #[] }

def setLogs (t : BareTerminal) (plain raw : Option Writer) : BareTerminal :=
  { t with plainLog := plain, rawLog := raw }

def setForward (t : BareTerminal) (on : Bool) : BareTerminal :=
  { t with forward := on }

def note (t : BareTerminal) (notice : Notice) : BareTerminal :=
  { t with notices := t.notices.push notice }

def emit (t : BareTerminal) (items : List Transport.Item) : Except Breach BareTerminal :=
  if t.forward then do return { t with escaped := t.escaped ++ (← Checked.render items) }
  else return t

def forwardByte (t : BareTerminal) (byte : UInt8) : Except Breach BareTerminal :=
  t.emit [.data byte]

def heldBytes (t : BareTerminal) : Except Breach Bytes := do
  return (← t.held.slices).1

def forwardHeld (t : BareTerminal) : Except Breach BareTerminal := do
  t.emit ((← t.heldBytes).map .data)

def toNormal (t : BareTerminal) : BareTerminal :=
  { t with held := t.held.clear, phase := .normal }

def abandon (t : BareTerminal) : Except Breach BareTerminal :=
  if t.phase = .collecting then do return (← t.forwardHeld).toNormal
  else return t.toNormal

-- A store that has no room for the first byte would stay empty.
def beginSequence (t : BareTerminal) : Except Breach BareTerminal := do
  let held ← t.held.clear.put? Byte.escape
  return { t with held := held.getD t.held.clear, phase := .collecting }

def recordHeld (t : BareTerminal) : Except Breach BareTerminal := do
  return { t with unhandled := ← Checked.record t.unhandled (← t.heldBytes) }

def putLine (t : BareTerminal) (byte : UInt8) : Except Breach (Outcome BareTerminal) := do
  match ← t.line.put? byte with
  | some line => return ⟨{ t with line }, none⟩
  | none => return ⟨t, some (.lineTooLong t.line.capacity)⟩

def endLine (t : BareTerminal) : Except Breach (Outcome BareTerminal) := do
  let t := { t with line := t.line.moveTo t.line.size }
  match t.plainLog with
  | none => return ⟨{ t with line := ← t.line.clearOnward }, none⟩
  | some log =>
    let (first, second) ← t.line.slices
    let written ← Checked.writeLine log first second
    match written.error with
    | none =>
      return ⟨{ t with plainLog := some written.state, line := ← t.line.clearOnward }, none⟩
    | some error => return ⟨{ t with plainLog := some written.state }, some error⟩

def plain (t : BareTerminal) (byte : UInt8) : Except Breach (Outcome BareTerminal) := do
  let t ← t.forwardByte byte
  if byte = Byte.newline then t.endLine
  else if Terminal.isLineByte byte then t.putLine byte
  else return ⟨t, none⟩

def rowStart (window : Option WindowSize) (position : Nat) : Except Breach Nat :=
  match window with
  | some size =>
    if 0 < size.cols then do
      Checked.mul Checked.sizeLimit (← Checked.div position size.cols) size.cols
    else return 0
  | none => return 0

def returnCarriage (t : BareTerminal) : Except Breach BareTerminal := do
  return { t with line := t.line.moveTo (← rowStart t.modes.window t.line.cursor) }

def stepBack (t : BareTerminal) : Except Breach BareTerminal :=
  if 0 < t.line.cursor then do
    return { t with line := t.line.moveTo (← Checked.sub t.line.cursor 1) }
  else return t

-- The distance stops at the greatest number, and the cursor at the beginning.
def cursorUp (t : BareTerminal) (count : Nat) : BareTerminal :=
  match t.modes.window with
  | some size =>
    let back := min (count * size.cols) (Checked.sizeLimit - 1)
    { t with line := t.line.moveTo (t.line.cursor - back) }
  | none => t

def cursorForward (t : BareTerminal) (count : Nat) : Except Breach BareTerminal :=
  if t.line.cursor < t.line.size then do
    let distance := min count (← Checked.sub t.line.size t.line.cursor)
    return { t with line := t.line.moveTo (← Checked.add Checked.sizeLimit t.line.cursor distance) }
  else do
    match ← t.line.put? Byte.space with
    | some line => return { t with line }
    | none => return t.note .forwardOnFullLine

def deleteChars (t : BareTerminal) (count : Nat) : Except Breach BareTerminal := do
  let remaining ← Checked.sub t.line.size t.line.cursor
  if count < remaining then return { t with line := ← t.line.remove t.line.cursor count }
  else return t.note (.deletePastEnd count remaining)

def apply (t : BareTerminal) : Action → Except Breach BareTerminal
  | .eraseToEnd => return { t with line := t.line.truncate t.line.cursor }
  | .cursorUp count => return t.cursorUp count
  | .cursorForward count => t.cursorForward count
  | .deleteChars count => t.deleteChars count
  | .appCursor on => return { t with modes := { t.modes with appCursor := on } }
  | .altScreen _ on => return { t with modes := { t.modes with altScreen := on } }

def showAction (t : BareTerminal) : Action → Except Breach BareTerminal
  | .altScreen mode on => t.emit ((mode.markers on).map .marker)
  | _ => t.forwardHeld

def done (t : BareTerminal) : BareTurn :=
  .settled ⟨t, none⟩

def complete (t : BareTerminal) (byte : UInt8) : Scan → Except Breach BareTurn
  | .pending => return t.done
  | .title => return done { t with held := t.held.clear, phase := .title false }
  | .known action => do return (← (← t.apply action).showAction action).toNormal.done
  | .unknown => do
    let raw ← t.heldBytes
    if raw.getLast? = some 'm'.toUInt8 then return (← t.abandon).done
    else return (← (← (t.note (.unhandledSequence raw)).recordHeld).abandon).done
  | .aborted => do
    let held := t.held.truncate (← Checked.sub t.held.size 1)
    return .settled (← (← { t with held }.abandon).plain byte)

def collect (t : BareTerminal) (byte : UInt8) : Except Breach BareTurn :=
  if byte = Byte.escape then do return (← (← t.abandon).beginSequence).done
  else do
    match ← t.held.put? byte with
    | some held =>
      let t := { t with held }
      t.complete byte (Sequence.scan (← t.heldBytes))
    | none =>
      let t ← (t.note (.sequenceTooLong t.held.size)).forwardHeld
      return .again { t with phase := .overlong }

def passThrough (t : BareTerminal) (byte : UInt8) : Except Breach BareTurn :=
  if 0x20 ≤ byte ∧ byte ≤ 0x3f then do return (← t.forwardByte byte).done
  else if 0x40 ≤ byte ∧ byte ≤ 0x7e then do
    let t ← t.forwardByte byte
    if byte = 'm'.toUInt8 then return t.toNormal.done
    else return (← t.recordHeld).toNormal.done
  else return .again t.toNormal

def turn (t : BareTerminal) (byte : UInt8) : Except Breach BareTurn :=
  if byte = Byte.carriageReturn then do
    return (← (← (← t.abandon).forwardByte byte).returnCarriage).done
  else if byte = Byte.backspace then
    if t.phase.inTitle then return t.done
    else do return (← (← t.forwardByte byte).stepBack).done
  else if byte = Byte.bel then
    if t.phase.inTitle then return done { t with phase := .normal }
    else do return (← (← t.abandon).forwardByte byte).done
  else match t.phase with
    | .normal =>
      if byte = Byte.escape then do return (← t.beginSequence).done
      else do return .settled (← t.plain byte)
    | .collecting => t.collect byte
    | .title false =>
      return done (if byte = Byte.escape then { t with phase := .title true } else t)
    | .title true =>
      if byte = Byte.backslash then return done { t with phase := .normal }
      else do (← t.beginSequence).collect byte
    | .overlong => t.passThrough byte

-- A byte that is not settled with its last turn would be read for ever.
def turns : Nat → BareTerminal → UInt8 → Except Breach (Outcome BareTerminal)
  | 0, _, _ => .error .recursion
  | limit + 1, t, byte => do
    match ← t.turn byte with
    | .settled outcome => return outcome
    | .again t => turns limit t byte

def step (t : BareTerminal) (byte : UInt8) : Except Breach (Outcome BareTerminal) :=
  turns 3 t byte

def interpret (t : BareTerminal) : Bytes → Except Breach (Outcome BareTerminal)
  | [] => return ⟨t, none⟩
  | byte :: rest => do Checked.onward (← t.step byte) fun t => t.interpret rest

def logRaw (t : BareTerminal) (chunk : Bytes) : Except Breach (Outcome BareTerminal) :=
  match t.rawLog with
  | none => return ⟨t, none⟩
  | some log => do
    let written ← Checked.deliver log .rawLog chunk
    return ⟨{ t with rawLog := some written.state }, written.error⟩

def feed (t : BareTerminal) (chunk : Bytes) : Except Breach (Outcome BareTerminal) := do
  let interpreted ← { t with escaped := [], notices := #[] }.interpret chunk
  let logged ← interpreted.state.logRaw chunk
  match logged.error.or interpreted.error with
  | some error => return ⟨logged.state, some error⟩
  | none =>
    if logged.state.forward then
      return ⟨{ logged.state with escaped := logged.state.escaped ++ [Byte.newline] }, none⟩
    else return ⟨logged.state, none⟩

end BareTerminal

end TerminalRelay
