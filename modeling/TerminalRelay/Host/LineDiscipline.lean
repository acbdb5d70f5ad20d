import TerminalRelay.Byte

/-!
The kernel's side of the pty in its usual settings: keystrokes are edited into lines and echoed, and
what the child prints gets a carriage return before each newline. Signal and flow control keys have
no effect here.
-/

namespace TerminalRelay.Host

def isControl (byte : UInt8) : Bool :=
  byte < 0x20 || byte == 0x7f

-- Output processing: a newline also returns the carriage
def cooked (bytes : Bytes) : Bytes :=
  bytes.flatMap fun byte =>
    if byte = Byte.newline then [Byte.carriageReturn, Byte.newline] else [byte]

structure LineDiscipline where
  -- the line being edited, last byte first
  editing : Bytes := []
  -- finished lines; one that an end-of-file key finished lacks its newline and may be empty
  lines : List Bytes := []
  -- the next key is taken as it is
  literal : Bool := false
  -- where the echo stands, and where it stood as the line began
  column : Nat := 0
  startColumn : Nat := 0
deriving DecidableEq, Repr

namespace LineDiscipline

def longestLine : Nat := 4095

def eofKey : UInt8 := 0x04
def reprintKey : UInt8 := 0x12
def startKey : UInt8 := 0x11
def stopKey : UInt8 := 0x13
def killKey : UInt8 := 0x15
def literalKey : UInt8 := 0x16
def wordKey : UInt8 := 0x17

-- A control byte shows as a caret and a letter
def echoOf (byte : UInt8) : Bytes :=
  if isControl byte ∧ byte ≠ Byte.tab then ['^'.toUInt8, byte ^^^ 0x40] else [byte]

def columnAfter (column : Nat) (byte : UInt8) : Nat :=
  if byte = Byte.newline ∨ byte = Byte.carriageReturn then 0
  else if byte = Byte.tab then column + (8 - column % 8)
  else if byte = Byte.backspace then column - 1
  else if isControl byte then column
  else column + 1

-- A key's echo, with what it does to the column
def echo (tty : LineDiscipline) (bytes : Bytes) : LineDiscipline × Bytes :=
  ({ tty with column := bytes.foldl columnAfter tty.column }, cooked bytes)

def insert (tty : LineDiscipline) (byte : UInt8) : LineDiscipline × Bytes :=
  let tty := if tty.editing.isEmpty then { tty with startColumn := tty.column } else tty
  { tty with editing := byte :: tty.editing }.echo (echoOf byte)

def finish (tty : LineDiscipline) (ending : Bytes) : LineDiscipline :=
  { tty with editing := [], lines := tty.lines ++ [tty.editing.reverse ++ ending] }

-- The columns that the bytes after the last tab took, and whether there is such a tab
def columnsSinceTab : Bytes → Nat × Bool
  | [] => (0, false)
  | byte :: before =>
    if byte = Byte.tab then (0, true)
    else
      let (columns, afterTab) := columnsSinceTab before
      (columns + if isControl byte then 2 else 1, afterTab)

-- What rubs out the echo of a byte that was typed after these
def rubOut (tty : LineDiscipline) (byte : UInt8) (before : Bytes) : Bytes :=
  if byte = Byte.tab then
    let (columns, afterTab) := columnsSinceTab before
    let columns := if afterTab then columns else columns + tty.startColumn
    List.replicate (8 - columns % 8) Byte.backspace
  else
    let once := [Byte.backspace, Byte.space, Byte.backspace]
    if isControl byte then once ++ once else once

def erase (tty : LineDiscipline) : LineDiscipline × Bytes :=
  match tty.editing with
  | [] => (tty, [])
  | byte :: before => { tty with editing := before }.echo (tty.rubOut byte before)

-- Erases this many bytes, last one first
def eraseMany (tty : LineDiscipline) : Nat → LineDiscipline × Bytes
  | 0 => (tty, [])
  | count + 1 =>
    let (tty, shown) := tty.erase
    let (tty, more) := tty.eraseMany count
    (tty, shown ++ more)

def isWordByte (byte : UInt8) : Bool :=
  Byte.isDigit byte || (0x41 ≤ byte && byte ≤ 0x5a) || (0x61 ≤ byte && byte ≤ 0x7a) ||
    byte == '_'.toUInt8 || (0xc0 ≤ byte && byte != 0xd7 && byte != 0xf7)

-- The last word, with what stands behind it
def lastWordLength (editing : Bytes) : Nat :=
  let behind := editing.takeWhile fun byte => !isWordByte byte
  behind.length + ((editing.drop behind.length).takeWhile isWordByte).length

def reprint (tty : LineDiscipline) : LineDiscipline × Bytes :=
  tty.echo (echoOf reprintKey ++ [Byte.newline] ++ tty.editing.reverse.flatMap echoOf)

-- A key takes the place of the one before it where a line has grown too long
def withRoom (tty : LineDiscipline) : LineDiscipline :=
  if longestLine < tty.editing.length then { tty with editing := tty.editing.drop 1 } else tty

-- One byte typed: the state after it and its echo
def type (tty : LineDiscipline) (key : UInt8) : LineDiscipline × Bytes :=
  let tty := tty.withRoom
  if tty.literal then { tty with literal := false }.insert key
  else
    let key := if key = Byte.carriageReturn then Byte.newline else key
    if key = startKey ∨ key = stopKey then (tty, [])
    else if key = Byte.delete then tty.erase
    else if key = killKey then tty.eraseMany tty.editing.length
    else if key = wordKey then tty.eraseMany (lastWordLength tty.editing)
    else if key = literalKey then
      { tty with literal := true }.echo ['^'.toUInt8, Byte.backspace]
    else if key = reprintKey then tty.reprint
    else if key = eofKey then (tty.finish [], [])
    else if key = Byte.newline then (tty.finish [Byte.newline]).echo [Byte.newline]
    else tty.insert key

def typeAll (tty : LineDiscipline) : Bytes → LineDiscipline × Bytes
  | [] => (tty, [])
  | key :: rest =>
    let (tty, shown) := tty.type key
    let (tty, more) := tty.typeAll rest
    (tty, shown ++ more)

end LineDiscipline

end TerminalRelay.Host
