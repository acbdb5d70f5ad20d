import TerminalRelay.Terminal.Basic

/-!
What text bytes, cursor movements and line ends do to the line.
-/

namespace TerminalRelay.Terminal

def isLineByte (byte : UInt8) : Bool :=
  byte == Byte.tab || (0x20 ≤ byte && byte != Byte.delete)

-- Refuses a byte only where the cursor stands at the capacity
def putLine (t : Terminal) (byte : UInt8) : Outcome Terminal :=
  if room : t.line.cursor < t.line.capacity then ⟨{ t with line := t.line.put byte room }, none⟩
  else ⟨t, some (.lineTooLong t.line.capacity)⟩

-- The line and a newline go to the plain log. A line that could not be written stays, with the
-- cursor at its end
def endLine (t : Terminal) : Outcome Terminal :=
  let t := { t with line := t.line.moveTo t.line.size }
  match t.plainLog with
  | none => ⟨{ t with line := t.line.clearOnward }, none⟩
  | some log =>
    let written := (log.deliver .plainLog t.line.slices.1).andThen fun log =>
      (log.deliver .plainLog t.line.slices.2).andThen fun log =>
        log.deliver .plainLog [Byte.newline]
    match written.error with
    | none => ⟨{ t with plainLog := some written.state, line := t.line.clearOnward }, none⟩
    | some error => ⟨{ t with plainLog := some written.state }, some error⟩

-- A byte outside every sequence
def plain (t : Terminal) (byte : UInt8) : Outcome Terminal :=
  let t := t.forwardByte byte
  if byte = Byte.newline then t.endLine
  else if isLineByte byte then t.putLine byte
  else ⟨t, none⟩

-- The start of the screen row that holds an offset of the line; a line is one row where the width
-- is not known
def rowStart (window : Option WindowSize) (position : Nat) : Nat :=
  match window with
  | some size => if 0 < size.cols then position / size.cols * size.cols else 0
  | none => 0

def returnCarriage (t : Terminal) : Terminal :=
  { t with line := t.line.moveTo (rowStart t.modes.window t.line.cursor) }

def stepBack (t : Terminal) : Terminal :=
  { t with line := t.line.moveTo (t.line.cursor - 1) }

def cursorUp (t : Terminal) (count : Nat) : Terminal :=
  match t.modes.window with
  | some size => { t with line := t.line.moveTo (t.line.cursor - count * size.cols) }
  | none => t

-- At the end of the line the cursor draws one blank behind it, however far it was to go
def cursorForward (t : Terminal) (count : Nat) : Terminal :=
  if t.line.cursor < t.line.size then { t with line := t.line.moveTo (t.line.cursor + count) }
  else if room : t.line.cursor < t.line.capacity then
    { t with line := t.line.put Byte.space room }
  else t.note .forwardOnFullLine

def deleteChars (t : Terminal) (count : Nat) : Terminal :=
  let remaining := t.line.size - t.line.cursor
  if count < remaining then { t with line := t.line.remove t.line.cursor count }
  else t.note (.deletePastEnd count remaining)

def apply (t : Terminal) : Action → Terminal
  | .eraseToEnd => { t with line := t.line.truncate t.line.cursor }
  | .cursorUp count => t.cursorUp count
  | .cursorForward count => t.cursorForward count
  | .deleteChars count => t.deleteChars count
  | .appCursor on => { t with modes := { t.modes with appCursor := on } }
  | .altScreen _ on => { t with modes := { t.modes with altScreen := on } }

-- How a completed action shows to the viewers: by its own bytes, or by markers
def showAction (t : Terminal) : Action → Terminal
  | .altScreen mode on => t.emit ((mode.markers on).map .marker)
  | _ => t.forwardHeld

end TerminalRelay.Terminal
