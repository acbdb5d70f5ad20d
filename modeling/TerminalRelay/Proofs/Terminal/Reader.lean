import TerminalRelay.Proofs.Sequence.Open
import TerminalRelay.Terminal.Line

namespace TerminalRelay

-- What a byte does to the line and to the modes
inductive Edit where
  | keep
  | put (byte : UInt8)
  | endLine
  | returnCarriage
  | stepBack
  | act (action : Action)
deriving DecidableEq, Repr

-- A byte outside every sequence
def Edit.ofText (byte : UInt8) : Edit :=
  if byte = Byte.newline then .endLine
  else if Terminal.isLineByte byte then .put byte
  else .keep

-- What the reading of one byte amounts to
structure Report where
  shown : List Transport.Item := []
  recorded : Option Bytes := none
  notice : Option Notice := none
  edit : Edit := .keep
deriving DecidableEq, Repr

-- A report on top of one that went before it; only one of the two records or notes anything.
def Report.join (earlier later : Report) : Report :=
  { later with
    shown := earlier.shown ++ later.shown
    recorded := earlier.recorded.or later.recorded
    notice := earlier.notice.or later.notice }

-- A complete sequence that means nothing
def Report.ofUnhandled (raw : Bytes) : Report where
  shown := raw.map .data
  recorded := some raw
  notice := some (.unhandledSequence raw)

-- How far a terminal has read its output: all it remembers apart from the line, the modes and
-- what was already reported. The store of the sequence being collected is only its bytes here.
structure Reader where
  phase : Phase
  held : Bytes
deriving DecidableEq, Repr

namespace Reader

def ground : Reader := ⟨.normal, []⟩

-- A sequence that has just begun
def opened : Reader := ⟨.collecting, [Byte.escape]⟩

-- What viewers are shown only when the sequence being collected is over
def withheld (reader : Reader) : Bytes :=
  if reader.phase = .collecting then reader.held else []

def readText (byte : UInt8) : Reader × Report :=
  (ground, { shown := [.data byte], edit := .ofText byte })

def shownAction (raw : Bytes) : Action → List Transport.Item
  | .altScreen mode on => (mode.markers on).map .marker
  | _ => raw.map .data

-- A sequence with its latest byte, as `scan` judges it
def readScanned (raw : Bytes) (byte : UInt8) : Scan → Reader × Report
  | .pending => (⟨.collecting, raw⟩, {})
  | .title => (⟨.title false, []⟩, {})
  | .known action => (ground, { shown := shownAction raw action, edit := .act action })
  | .unknown =>
    if byte = 'm'.toUInt8 then (ground, { shown := raw.map .data })
    else (ground, .ofUnhandled raw)
  | .aborted => (ground, { shown := raw.map .data, edit := .ofText byte })

-- A byte of a sequence that outgrew its store
def readOverlong (held : Bytes) (byte : UInt8) : Reader × Report :=
  if Sequence.IsParameter byte then (⟨.overlong, held⟩, { shown := [.data byte] })
  else if Sequence.IsControlFinal byte then
    (ground,
      { shown := [.data byte], recorded := if byte = 'm'.toUInt8 then none else some held })
  else if byte = Byte.escape then (opened, {})
  else readText byte

def readHeld (capacity : Nat) (held : Bytes) (byte : UInt8) : Reader × Report :=
  if byte = Byte.escape then (opened, { shown := held.map .data })
  else if held.length < capacity then
    readScanned (held ++ [byte]) byte (Sequence.scan (held ++ [byte]))
  else
    let (reader, report) := readOverlong held byte
    (reader,
      .join { shown := held.map .data, notice := some (.sequenceTooLong held.length) } report)

def read (capacity : Nat) (reader : Reader) (byte : UInt8) : Reader × Report :=
  if byte = Byte.carriageReturn then
    (ground, { shown := (reader.withheld ++ [byte]).map .data, edit := .returnCarriage })
  else if byte = Byte.backspace then
    if reader.phase.inTitle then (reader, {})
    else (reader, { shown := [.data byte], edit := .stepBack })
  else if byte = Byte.bel then
    if reader.phase.inTitle then (ground, {})
    else (ground, { shown := (reader.withheld ++ [byte]).map .data })
  else match reader.phase with
    | .normal => if byte = Byte.escape then (opened, {}) else readText byte
    | .collecting => readHeld capacity reader.held byte
    | .title false => if byte = Byte.escape then (⟨.title true, []⟩, {}) else (reader, {})
    | .title true =>
      if byte = Byte.backslash then (ground, {}) else readHeld capacity [Byte.escape] byte
    | .overlong => readOverlong reader.held byte

def after (capacity : Nat) (reader : Reader) (bytes : Bytes) : Reader :=
  bytes.foldl (fun reader byte => (read capacity reader byte).1) reader

def reports (capacity : Nat) : Reader → Bytes → List Report
  | _, [] => []
  | reader, byte :: rest =>
    (read capacity reader byte).2 :: reports capacity (read capacity reader byte).1 rest

@[simp] theorem after_nil (capacity : Nat) (reader : Reader) :
    after capacity reader [] = reader := rfl

@[simp] theorem after_cons (capacity : Nat) (reader : Reader) (byte : UInt8) (rest : Bytes) :
    after capacity reader (byte :: rest) = after capacity (read capacity reader byte).1 rest := rfl

theorem after_append (capacity : Nat) (reader : Reader) (left right : Bytes) :
    after capacity reader (left ++ right) = after capacity (after capacity reader left) right :=
  List.foldl_append

@[simp] theorem reports_nil (capacity : Nat) (reader : Reader) :
    reports capacity reader [] = [] := rfl

@[simp] theorem reports_cons (capacity : Nat) (reader : Reader) (byte : UInt8) (rest : Bytes) :
    reports capacity reader (byte :: rest) =
      (read capacity reader byte).2 :: reports capacity (read capacity reader byte).1 rest := rfl

theorem reports_append (capacity : Nat) (reader : Reader) (left right : Bytes) :
    reports capacity reader (left ++ right) =
      reports capacity reader left ++ reports capacity (after capacity reader left) right := by
  induction left generalizing reader with
  | nil => rfl
  | cons byte rest ih => simp only [List.cons_append, reports_cons, after_cons, ih]

-- What viewers are shown of the bytes read, and the sequences that go on record
def shown (capacity : Nat) (reader : Reader) (bytes : Bytes) : List Transport.Item :=
  (reports capacity reader bytes).flatMap Report.shown

def recorded (capacity : Nat) (reader : Reader) (bytes : Bytes) : List Bytes :=
  (reports capacity reader bytes).filterMap Report.recorded

theorem shown_append (capacity : Nat) (reader : Reader) (left right : Bytes) :
    shown capacity reader (left ++ right) =
      shown capacity reader left ++ shown capacity (after capacity reader left) right := by
  simp only [shown, reports_append, List.flatMap_append]

theorem recorded_append (capacity : Nat) (reader : Reader) (left right : Bytes) :
    recorded capacity reader (left ++ right) =
      recorded capacity reader left ++ recorded capacity (after capacity reader left) right := by
  simp only [recorded, reports_append, List.filterMap_append]

-- The bytes held are those of a sequence that is open, and there are none otherwise.
def Coherent (capacity : Nat) (reader : Reader) : Prop :=
  match reader.phase with
  | .normal | .title _ => reader.held = []
  | .collecting => Sequence.Open reader.held ∧ reader.held.length ≤ capacity
  | .overlong => Sequence.Open reader.held ∧ reader.held.length = capacity

theorem coherent_ground (capacity : Nat) : ground.Coherent capacity := rfl

theorem coherent_opened {capacity : Nat} (hcapacity : 0 < capacity) :
    opened.Coherent capacity := ⟨.escape, hcapacity⟩

theorem coherent_readOverlong {capacity : Nat} (hcapacity : 0 < capacity) {held : Bytes}
    (hopen : Sequence.Open held) (hfull : held.length = capacity) (byte : UInt8) :
    (readOverlong held byte).1.Coherent capacity := by
  unfold readOverlong
  split
  · exact ⟨hopen, hfull⟩
  · split
    · exact coherent_ground capacity
    · split
      · exact coherent_opened hcapacity
      · exact coherent_ground capacity

theorem coherent_readScanned {capacity : Nat} {raw : Bytes} (hle : raw.length ≤ capacity)
    (byte : UInt8) (outcome : Scan) (hopen : outcome = .pending → Sequence.Open raw) :
    (readScanned raw byte outcome).1.Coherent capacity := by
  cases outcome with
  | pending => exact ⟨hopen rfl, hle⟩
  | title => rfl
  | known action => exact coherent_ground capacity
  | unknown =>
      dsimp only [readScanned]
      split <;> exact coherent_ground capacity
  | aborted => exact coherent_ground capacity

theorem coherent_readHeld {capacity : Nat} (hcapacity : 0 < capacity) {held : Bytes}
    (hopen : Sequence.Open held) (hle : held.length ≤ capacity) (byte : UInt8) :
    (readHeld capacity held byte).1.Coherent capacity := by
  unfold readHeld
  split
  · exact coherent_opened hcapacity
  · split
    · refine coherent_readScanned ?_ byte _ hopen.append
      rw [List.length_append]
      exact ‹held.length < capacity›
    · exact coherent_readOverlong hcapacity hopen (by omega) byte

theorem Coherent.read {capacity : Nat} {reader : Reader} (hcoherent : reader.Coherent capacity)
    (hcapacity : 0 < capacity) (byte : UInt8) :
    (reader.read capacity byte).1.Coherent capacity := by
  obtain ⟨phase, held⟩ := reader
  unfold Reader.read
  split
  · exact coherent_ground capacity
  split
  · split <;> exact hcoherent
  split
  · split <;> exact coherent_ground capacity
  cases phase with
  | normal =>
      dsimp only
      split
      · exact coherent_opened hcapacity
      · exact coherent_ground capacity
  | collecting => exact coherent_readHeld hcapacity hcoherent.1 hcoherent.2 byte
  | title sawEscape =>
      cases sawEscape with
      | false =>
          dsimp only
          split
          · rfl
          · exact hcoherent
      | true =>
          dsimp only
          split
          · exact coherent_ground capacity
          · exact coherent_readHeld hcapacity .escape hcapacity byte
  | overlong => exact coherent_readOverlong hcapacity hcoherent.1 hcoherent.2 byte

end Reader

end TerminalRelay
