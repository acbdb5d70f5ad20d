import TerminalRelay.Proofs.ByteRing.Content
import TerminalRelay.Proofs.Json.Document
import TerminalRelay.Proofs.Json.WellFormed
import TerminalRelay.Proofs.Text.Lossy
import TerminalRelay.Proofs.Unhandled.Printable
import TerminalRelay.Session.Snapshot

namespace TerminalRelay

-- What a document says, where it is of the wanted shape

namespace Json

def natural? : Json → Option Nat
  | number value => some value
  | _ => none

def truth? : Json → Option Bool
  | bool value => some value
  | _ => none

def text? : Json → Option String
  | string text => some text
  | _ => none

def items? : Json → Option (List Json)
  | array items => some items
  | _ => none

def optional? {α : Type} (read : Json → Option α) : Json → Option (Option α)
  | null => some none
  | document => (read document).map some

-- The values of an object that has just these keys, in this order
def values? (keys : List String) : Json → Option (List Json)
  | object fields => if fields.map Prod.fst = keys then some (fields.map Prod.snd) else none
  | _ => none

end Json

def Phase.ofJson? : Json → Option Phase
  | .string name =>
    if name = "Normal" then some normal
    else if name = "Accumulating" then some collecting
    else if name = "Overlong" then some overlong
    else none
  | document => do
    let [inner] ← document.values? ["Osc"] | none
    let [sawEscape] ← inner.values? ["saw_esc"] | none
    return title (← sawEscape.truth?)

-- The bytes of a window size that has begun are not told.
def KeyPhase.ofJson? (document : Json) : Option KeyPhase := do
  let name ← document.text?
  if name = "Idle" then some idle
  else if name = "SawBackslash" then some directive
  else if name = "ReadingWindowSize" then some (windowSize [])
  else none

def WindowSize.ofJson? (document : Json) : Option WindowSize := do
  let [rows, cols] ← document.values? ["rows", "cols"] | none
  return { rows := ← rows.natural?, cols := ← cols.natural? }

def Modes.ofJson? (document : Json) : Option Modes := do
  let [altScreen, appCursor, window] ←
    document.values? ["alt_screen", "app_cursor", "window"] | none
  return {
    altScreen := ← altScreen.truth?
    appCursor := ← appCursor.truth?
    window := ← window.optional? WindowSize.ofJson? }

-- The two fields have to tell of the same bytes.
def Unhandled.ofJson? (document : Json) : Option Unhandled := do
  let [sequence, hex] ← document.values? ["sequence", "raw_hex"] | none
  let entry : Unhandled := { raw := ← Bytes.ofHex? (← hex.text?) }
  if (← sequence.text?) = entry.printable then some entry else none

namespace Snapshot

def keys : List String :=
  ["line", "line_len", "linepos", "escape_state", "modes", "forward_to_viewers", "key_state",
    "pending_resize", "protocol_errors", "unhandled", "unhandled_dropped"]

def ofJson? (document : Json) : Option Snapshot := do
  let [line, lineLength, linePosition, phase, modes, forward, keyPhase, resize, protocolErrors,
    unhandled, dropped] ← document.values? keys | none
  return {
    line := ← line.text?
    lineLength := ← lineLength.natural?
    linePosition := ← linePosition.natural?
    phase := ← Phase.ofJson? phase
    modes := ← Modes.ofJson? modes
    forward := ← forward.truth?
    keyPhase := ← KeyPhase.ofJson? keyPhase
    resize := ← resize.optional? WindowSize.ofJson?
    protocolErrors := ← protocolErrors.natural?
    unhandled := ← (← unhandled.items?).mapM Unhandled.ofJson?
    dropped := ← dropped.natural? }

end Snapshot

theorem Phase.ofJson?_toJson (phase : Phase) : ofJson? phase.toJson = some phase := by
  cases phase <;> rfl

def KeyPhase.bare : KeyPhase → KeyPhase
  | windowSize _ => windowSize []
  | phase => phase

theorem KeyPhase.ofJson?_toJson (phase : KeyPhase) : ofJson? phase.toJson = some phase.bare := by
  cases phase <;> rfl

theorem WindowSize.optional?_toJson (size : Option WindowSize) :
    (optionToJson size).optional? ofJson? = some size := by
  cases size <;> rfl

theorem Modes.ofJson?_toJson (modes : Modes) : ofJson? modes.toJson = some modes := by
  obtain ⟨altScreen, appCursor, window⟩ := modes
  cases window <;> rfl

theorem Unhandled.ofJson?_toJson (entry : Unhandled) : ofJson? entry.toJson = some entry := by
  have hhex : Bytes.ofHex? entry.hex = some entry.raw := Bytes.ofHex?_hex entry.raw
  change (Bytes.ofHex? entry.hex >>= _) = _
  rw [hhex]
  exact if_pos rfl

theorem Unhandled.mapM_toJson (entries : List Unhandled) :
    (entries.map toJson).mapM ofJson? = some entries := by
  induction entries with
  | nil => rfl
  | cons entry rest ih =>
      rw [List.map_cons, List.mapM_cons, ofJson?_toJson, ih]
      rfl

namespace Snapshot

-- A snapshot as far as it is told
def bare (snapshot : Snapshot) : Snapshot :=
  { snapshot with keyPhase := snapshot.keyPhase.bare }

theorem values?_toJson (snapshot : Snapshot) : snapshot.toJson.values? keys =
    some [.string snapshot.line, .number snapshot.lineLength, .number snapshot.linePosition,
      snapshot.phase.toJson, snapshot.modes.toJson, .bool snapshot.forward,
      snapshot.keyPhase.toJson, WindowSize.optionToJson snapshot.resize,
      .number snapshot.protocolErrors, .array (snapshot.unhandled.map Unhandled.toJson),
      .number snapshot.dropped] := rfl

theorem ofJson?_toJson (snapshot : Snapshot) : ofJson? snapshot.toJson = some snapshot.bare := by
  rw [ofJson?, values?_toJson]
  simp only [Option.bind_eq_bind, Option.pure_def, Option.bind_some, Json.text?, Json.natural?,
    Json.truth?, Json.items?, Phase.ofJson?_toJson, Modes.ofJson?_toJson, KeyPhase.ofJson?_toJson,
    WindowSize.optional?_toJson, Unhandled.mapM_toJson, bare]

end Snapshot

-- The dump of a session is a single object. It is read back as what the session's snapshot tells,
-- field for field and in this order. The sequences in it are told as their bytes read, and its line
-- is the line of the session where that is text.
theorem Session.dump_faithful (session : Session) :
    Json.WellFormed session.dump ∧
    ∃ fields picture, Json.parse session.dump = .ok (.object fields) ∧
      fields.map Prod.fst = Snapshot.keys ∧
      Snapshot.ofJson? (.object fields) = some picture ∧
      picture = session.snapshot.bare ∧
      picture.lineLength = session.terminal.line.toList.length ∧
      picture.linePosition ≤ picture.lineLength ∧
      (∀ entry ∈ picture.unhandled, ∀ text,
        Unhandled.ToldAs entry.raw text ↔ entry.printable.toList = text) ∧
      (session.terminal.line.toList.toByteArray.IsValidUTF8 →
        Bytes.ofText picture.line = session.terminal.line.toList) := by
  have hparse : Json.parse session.dump = .ok session.snapshot.toJson :=
    Json.parse_pretty session.snapshot.toJson
  refine ⟨Json.wellFormed_pretty session.snapshot.toJson, _, session.snapshot.bare, hparse, rfl,
    Snapshot.ofJson?_toJson session.snapshot, rfl, rfl, ?_, fun entry _ => entry.toldAs_iff,
    Lossy.ofText_decode⟩
  change session.terminal.line.cursor ≤ session.terminal.line.toList.length
  rw [ByteRing.length_toList]
  exact session.terminal.line.cursor_le

end TerminalRelay
