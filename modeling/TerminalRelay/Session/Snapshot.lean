import TerminalRelay.Json.Printer
import TerminalRelay.Session.Basic
import TerminalRelay.Text.Lossy

/-!
A picture of a session for diagnosis, and the document it is dumped as.
-/

namespace TerminalRelay

structure Snapshot where
  line : String
  lineLength : Nat
  linePosition : Nat
  phase : Phase
  modes : Modes
  forward : Bool
  keyPhase : KeyPhase
  resize : Option WindowSize
  protocolErrors : Nat
  unhandled : List Unhandled
  dropped : Nat

def Phase.toJson : Phase → Json
  | normal => .string "Normal"
  | collecting => .string "Accumulating"
  | title sawEscape => .object [("Osc", .object [("saw_esc", .bool sawEscape)])]
  | overlong => .string "Overlong"

def KeyPhase.toJson : KeyPhase → Json
  | idle => .string "Idle"
  | directive => .string "SawBackslash"
  | windowSize _ => .string "ReadingWindowSize"

def WindowSize.toJson (size : WindowSize) : Json :=
  .object [("rows", .number size.rows), ("cols", .number size.cols)]

def WindowSize.optionToJson : Option WindowSize → Json
  | none => .null
  | some size => size.toJson

def Modes.toJson (modes : Modes) : Json :=
  .object [("alt_screen", .bool modes.altScreen), ("app_cursor", .bool modes.appCursor),
    ("window", WindowSize.optionToJson modes.window)]

def Unhandled.toJson (entry : Unhandled) : Json :=
  .object [("sequence", .string entry.printable), ("raw_hex", .string entry.hex)]

def Snapshot.toJson (snapshot : Snapshot) : Json :=
  .object
    [("line", .string snapshot.line),
      ("line_len", .number snapshot.lineLength),
      ("linepos", .number snapshot.linePosition),
      ("escape_state", snapshot.phase.toJson),
      ("modes", snapshot.modes.toJson),
      ("forward_to_viewers", .bool snapshot.forward),
      ("key_state", snapshot.keyPhase.toJson),
      ("pending_resize", WindowSize.optionToJson snapshot.resize),
      ("protocol_errors", .number snapshot.protocolErrors),
      ("unhandled", .array (snapshot.unhandled.map Unhandled.toJson)),
      ("unhandled_dropped", .number snapshot.dropped)]

namespace Session

def snapshot (session : Session) : Snapshot where
  line := Lossy.decode session.terminal.line.toList
  lineLength := session.terminal.line.toList.length
  linePosition := session.terminal.line.cursor
  phase := session.terminal.phase
  modes := session.terminal.modes
  forward := session.terminal.forward
  keyPhase := session.keys.phase
  resize := session.keys.resize
  protocolErrors := session.keys.protocolErrors
  unhandled := session.terminal.unhandled.entries
  dropped := session.terminal.unhandled.dropped

def dump (session : Session) : String :=
  session.snapshot.toJson.pretty

end Session

end TerminalRelay
