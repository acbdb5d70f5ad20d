import TerminalRelay.Terminal.Line

/-!
Output byte by byte. A byte is read in the phase the terminal is in; a byte that ends that phase
without belonging to it is read again in the next one, which happens at most twice.
-/

namespace TerminalRelay

-- What one reading makes of a byte: it is dealt with, or to be read again in the phase reached
inductive Turn where
  | settled (outcome : Outcome Terminal)
  | again (terminal : Terminal)

def Turn.done (t : Terminal) : Turn :=
  .settled ⟨t, none⟩

namespace Terminal

-- The final byte of a sequence, with the byte that made it unfit in the case of an abort
def complete (t : Terminal) (byte : UInt8) : Scan → Turn
  | .pending => .done t
  | .title => .done { t with held := t.held.clear, phase := .title false }
  | .known action => .done ((t.apply action).showAction action).toNormal
  | .unknown =>
    if t.heldBytes.getLast? = some 'm'.toUInt8 then .done t.abandon
    else .done ((t.note (.unhandledSequence t.heldBytes)).recordHeld).abandon
  | .aborted =>
    .settled ({ t with held := t.held.truncate (t.held.size - 1) }.abandon.plain byte)

-- A byte of a sequence that has begun
def collect (t : Terminal) (byte : UInt8) : Turn :=
  if byte = Byte.escape then .done t.abandon.beginSequence
  else if room : t.held.cursor < t.held.capacity then
    let t := { t with held := t.held.put byte room }
    t.complete byte (Sequence.scan t.heldBytes)
  else .again { (t.note (.sequenceTooLong t.held.size)).forwardHeld with phase := .overlong }

-- A byte of a sequence that outgrew its store
def passThrough (t : Terminal) (byte : UInt8) : Turn :=
  if 0x20 ≤ byte ∧ byte ≤ 0x3f then .done (t.forwardByte byte)
  else if 0x40 ≤ byte ∧ byte ≤ 0x7e then
    let t := t.forwardByte byte
    .done (if byte = 'm'.toUInt8 then t else t.recordHeld).toNormal
  else .again t.toNormal

def turn (t : Terminal) (byte : UInt8) : Turn :=
  if byte = Byte.carriageReturn then .done (t.abandon.forwardByte byte).returnCarriage
  else if byte = Byte.backspace then
    -- acts at once, also inside a sequence, which goes on after it
    if t.phase.inTitle then .done t else .done (t.forwardByte byte).stepBack
  else if byte = Byte.bel then
    if t.phase.inTitle then .done { t with phase := .normal }
    else .done (t.abandon.forwardByte byte)
  else match t.phase with
    | .normal => if byte = Byte.escape then .done t.beginSequence else .settled (t.plain byte)
    | .collecting => t.collect byte
    | .title false =>
      .done (if byte = Byte.escape then { t with phase := .title true } else t)
    | .title true =>
      -- a new sequence cuts the title short
      if byte = Byte.backslash then .done { t with phase := .normal }
      else t.beginSequence.collect byte
    | .overlong => t.passThrough byte

def turns : Nat → Terminal → UInt8 → Outcome Terminal
  | 0, t, _ => ⟨t, none⟩
  | limit + 1, t, byte =>
    match t.turn byte with
    | .settled outcome => outcome
    | .again t => turns limit t byte

-- Three turns settle every byte: one that outgrows the store passes on from there, and one that no
-- sequence holds is read as text
def step (t : Terminal) (byte : UInt8) : Outcome Terminal :=
  turns 3 t byte

def interpret (t : Terminal) : Bytes → Outcome Terminal
  | [] => ⟨t, none⟩
  | byte :: rest =>
    match t.step byte with
    | ⟨t, none⟩ => t.interpret rest
    | stopped => stopped

def logRaw (t : Terminal) (chunk : Bytes) : Outcome Terminal :=
  match t.rawLog with
  | none => ⟨t, none⟩
  | some log =>
    let written := log.deliver .rawLog chunk
    ⟨{ t with rawLog := some written.state }, written.error⟩

-- One chunk of output. The raw log gets all of it even where the line could not be rebuilt, and its
-- failure is the one that is told
def feed (t : Terminal) (chunk : Bytes) : Outcome Terminal :=
  let interpreted := { t with viewers := {}, notices := #[] }.interpret chunk
  let logged := interpreted.state.logRaw chunk
  match logged.error.or interpreted.error with
  | some error => ⟨logged.state, some error⟩
  | none =>
    ⟨{ logged.state with
        viewers := { logged.state.viewers with ended := logged.state.forward } }, none⟩

end Terminal

end TerminalRelay
