import TerminalRelay.Proofs.Checked.Word
import TerminalRelay.Proofs.Keys.Chunks

namespace TerminalRelay

open Checked (sizeLimit shortLimit)

inductive KeyStage where
  | idle
  | directive
  | windowSize
deriving DecidableEq, Repr

-- A decoder with its two stores as cells; in either of them only the first few mean anything.
structure BareKeys where
  stage : KeyStage := .idle
  field : Array UInt8 := Array.replicate Typing.windowFieldLength 0
  fieldLength : Nat := 0
  pending : Array UInt8 := Array.replicate Typing.bufferCapacity 0
  pendingLength : Nat := 0
  resize : Option WindowSize := none
  dumpRequested : Bool := false
  protocolErrors : Nat := 0
  notices : Array Notice := #[]

structure BareTyping where
  keys : BareKeys
  modes : Modes
  pty : Writer

namespace Checked

-- A number of up to four digits, in 16 bits
def parseNumber : Nat → Bytes → Except Breach (Option Nat)
  | value, [] => return if value = 0 then none else some value
  | value, digit :: rest =>
    if Byte.isDigit digit then do
      let scaled ← mul shortLimit value 10
      parseNumber (← add shortLimit scaled (← sub digit.toNat 0x30)) rest
    else return none

def parseField (field : Array UInt8) : Except Breach (Option WindowSize) := do
  match ← parseNumber 0 (← slice field 0 4) with
  | none => return none
  | some rows =>
    match ← parseNumber 0 (← slice field 4 8) with
    | none => return none
    | some cols => return some { rows, cols }

end Checked

namespace BareKeys

def takeResize (keys : BareKeys) : Option WindowSize × BareKeys :=
  (keys.resize, { keys with resize := none })

def takeDumpRequest (keys : BareKeys) : Bool × BareKeys :=
  (keys.dumpRequested, { keys with dumpRequested := false })

-- What the stores hold
def phase (keys : BareKeys) : KeyPhase :=
  match keys.stage with
  | .idle => .idle
  | .directive => .directive
  | .windowSize => .windowSize (keys.field.toList.take keys.fieldLength)

def waiting (keys : BareKeys) : Bytes :=
  keys.pending.toList.take keys.pendingLength

def decoder (keys : BareKeys) : KeyDecoder where
  phase := keys.phase
  pending := keys.waiting
  resize := keys.resize
  dumpRequested := keys.dumpRequested
  protocolErrors := keys.protocolErrors
  notices := keys.notices

structure Bounded (keys : BareKeys) : Prop where
  field : keys.field.size = 8
  fieldLength : keys.fieldLength < 8
  pending : keys.pending.size = 256
  pendingLength : keys.pendingLength ≤ 256

-- Only the two stores and how far they are filled matter.
theorem Bounded.sameStores {keys next : BareKeys} (bounded : keys.Bounded)
    (hfield : next.field = keys.field) (hfieldLength : next.fieldLength = keys.fieldLength)
    (hpending : next.pending = keys.pending)
    (hpendingLength : next.pendingLength = keys.pendingLength) : next.Bounded := by
  constructor
  · rw [hfield]
    exact bounded.field
  · rw [hfieldLength]
    exact bounded.fieldLength
  · rw [hpending]
    exact bounded.pending
  · rw [hpendingLength]
    exact bounded.pendingLength

end BareKeys

namespace BareTyping

def enter (typing : BareTyping) (stage : KeyStage) : BareTyping :=
  { typing with keys := { typing.keys with stage } }

def violation (typing : BareTyping) (notice : Notice) : BareTyping :=
  { typing with keys := { typing.keys with
      protocolErrors := typing.keys.protocolErrors + 1
      notices := typing.keys.notices.push notice } }

def flush (typing : BareTyping) : Except Breach (Outcome BareTyping) :=
  if typing.keys.pendingLength = 0 then return ⟨typing, none⟩
  else do
    let bytes ← Checked.slice typing.keys.pending 0 typing.keys.pendingLength
    let written ← Checked.deliver typing.pty .pty bytes
    return ⟨{ typing with keys := { typing.keys with pendingLength := 0 }, pty := written.state },
      written.error⟩

def gather (typing : BareTyping) (bytes : Bytes) : Except Breach (Outcome BareTyping) := do
  let pendingLength ← Checked.add sizeLimit typing.keys.pendingLength bytes.length
  let pending ← Checked.copyInto typing.keys.pending typing.keys.pendingLength pendingLength bytes
  return ⟨{ typing with keys := { typing.keys with pending, pendingLength } }, none⟩

def queue (typing : BareTyping) (bytes : Bytes) : Except Breach (Outcome BareTyping) := do
  let filled ← Checked.add sizeLimit typing.keys.pendingLength bytes.length
  if Typing.bufferCapacity < filled then
    Checked.onward (← typing.flush) fun typing => typing.gather bytes
  else typing.gather bytes

def finishWindowSize (typing : BareTyping) : Except Breach BareTyping := do
  match ← Checked.parseField typing.keys.field with
  | some size =>
    return { typing with
      modes := { typing.modes with window := some size }
      keys := { typing.keys with
        resize := some size
        notices := typing.keys.notices.push (.resizeRequested size) } }
  | none => return typing.violation (.malformedWindowSize typing.keys.field.toList)

def obey (typing : BareTyping) : Directive → Except Breach (Outcome BareTyping)
  | .newline => typing.queue [Byte.newline]
  | .backslash => typing.queue [Byte.backslash]
  | .cursor key => typing.queue (key.bytes typing.modes.appCursor)
  | .dump => return ⟨{ typing with keys := { typing.keys with dumpRequested := true } }, none⟩
  | .keepAlive => return ⟨typing, none⟩
  | .windowSize =>
    return ⟨{ typing with keys := { typing.keys with stage := .windowSize, fieldLength := 0 } },
      none⟩

def step (typing : BareTyping) (byte : UInt8) : Except Breach (Outcome BareTyping) :=
  match typing.keys.stage with
  | .idle =>
    if byte = Byte.backslash then return ⟨typing.enter .directive, none⟩ else typing.queue [byte]
  | .directive =>
    let typing := typing.enter .idle
    match Directive.ofByte? byte with
    | some directive => typing.obey directive
    | none => return ⟨typing.violation (.unknownDirective byte), none⟩
  | .windowSize => do
    let field ← Checked.write typing.keys.field typing.keys.fieldLength byte
    let fieldLength ← Checked.add sizeLimit typing.keys.fieldLength 1
    if fieldLength = Typing.windowFieldLength then
      let keys := { typing.keys with stage := .idle, field, fieldLength := 0 }
      return ⟨← { typing with keys }.finishWindowSize, none⟩
    else return ⟨{ typing with keys := { typing.keys with field, fieldLength } }, none⟩

def steps (typing : BareTyping) : Bytes → Except Breach (Outcome BareTyping)
  | [] => return ⟨typing, none⟩
  | byte :: rest => do Checked.onward (← typing.step byte) fun typing => typing.steps rest

def typing (t : BareTyping) : Typing :=
  ⟨t.keys.decoder, t.modes, t.pty⟩

end BareTyping

def BareKeys.feed (keys : BareKeys) (modes : Modes) (pty : Writer) (input : Bytes) :
    Except Breach (Outcome BareTyping) := do
  let typing : BareTyping := ⟨{ keys with notices := #[] }, modes, pty⟩
  Checked.onward (← typing.steps input) BareTyping.flush

namespace Checked

theorem isDigit_range {digit : UInt8} (h : Byte.isDigit digit = true) :
    0x30 ≤ digit.toNat ∧ digit.toNat ≤ 0x39 := by
  unfold Byte.isDigit at h
  rw [Bool.and_eq_true, decide_eq_true_eq, decide_eq_true_eq] at h
  exact ⟨UInt8.le_iff_toNat_le.mp h.1, UInt8.le_iff_toNat_le.mp h.2⟩

-- A digit more makes a number at most about ten times as great, and there are no more than four.
theorem parseNumber_eq {value count : Nat} {digits : Bytes} (hvalue : value < 10 ^ count)
    (hcount : count + digits.length ≤ 4) :
    parseNumber value digits = .ok (if digits.all Byte.isDigit then
      (let total := digits.foldl (fun value digit => 10 * value + Byte.digitValue digit) value
       if total = 0 then none else some total) else none) := by
  induction digits generalizing value count with
  | nil => rfl
  | cons digit rest ih =>
      rw [parseNumber]
      by_cases hdigit : Byte.isDigit digit = true
      · rw [List.length_cons] at hcount
        have hpow : 10 ^ count ≤ 10 ^ 3 := Nat.pow_le_pow_right (by decide) (by omega)
        have hnext : 10 ^ (count + 1) = 10 * 10 ^ count := Nat.pow_succ'
        obtain ⟨hlow, hhigh⟩ := isDigit_range hdigit
        have hmul : mul shortLimit value 10 = .ok (value * 10) := by
          apply mul_of_lt
          unfold shortLimit
          omega
        have hsub : sub digit.toNat 0x30 = .ok (digit.toNat - 0x30) := sub_of_le hlow
        have hadd : add shortLimit (value * 10) (digit.toNat - 0x30) =
            .ok (value * 10 + (digit.toNat - 0x30)) := by
          apply add_of_lt
          unfold shortLimit
          omega
        have hsum : value * 10 + (digit.toNat - 0x30) < 10 ^ (count + 1) := by omega
        have hsame : value * 10 + (digit.toNat - 0x30) = 10 * value + Byte.digitValue digit := by
          unfold Byte.digitValue
          omega
        have hrest := ih hsum (by omega)
        rw [if_pos hdigit]
        simp only [hmul, hsub, hadd, bind, Except.bind]
        rw [hrest, hsame, List.all_cons, hdigit, Bool.true_and, List.foldl_cons]
      · rw [if_neg hdigit, List.all_cons, eq_false_of_ne_true hdigit]
        rfl

theorem parseNumber_dimension {digits : Bytes} (hlength : digits.length ≤ 4) :
    parseNumber 0 digits = .ok (dimension? digits) := by
  have hparse := parseNumber_eq (Nat.one_pos : 0 < 10 ^ 0) (by omega : 0 + digits.length ≤ 4)
  rw [hparse, dimension?]
  cases digits.all Byte.isDigit with
  | false => rfl
  | true =>
      change Except.ok (if Byte.decimal digits = 0 then none else some (Byte.decimal digits)) = _
      by_cases hzero : Byte.decimal digits = 0
      · rw [if_pos hzero, if_neg (by omega)]
      · rw [if_neg hzero, if_pos ⟨rfl, Nat.pos_of_ne_zero hzero⟩]

theorem parseField_eq {field : Array UInt8} (hfield : field.size = 8) :
    parseField field = .ok (WindowSize.ofField? field.toList) := by
  have hlength : field.toList.length = 8 := hfield
  have hrows : slice field 0 4 = .ok (field.toList.take 4) := by
    rw [slice_of_le (by omega) (by omega)]
    simp
  have hcols : slice field 4 8 = .ok (field.toList.drop 4) := by
    have hall : (field.toList.drop 4).take 4 = field.toList.drop 4 := by
      apply List.take_of_length_le
      rw [List.length_drop]
      omega
    rw [slice_of_le (by omega) (by omega), Array.toList_extract]
    exact congrArg Except.ok hall
  have hrows' : parseNumber 0 (field.toList.take 4) = _ :=
    parseNumber_dimension (List.length_take_le _ _)
  have hcols' : parseNumber 0 (field.toList.drop 4) = _ :=
    parseNumber_dimension (by rw [List.length_drop]; omega)
  simp only [parseField, hrows, hrows', hcols, hcols', bind, Except.bind, WindowSize.ofField?]
  cases dimension? (field.toList.take 4) with
  | none => rfl
  | some rows =>
      cases dimension? (field.toList.drop 4) with
      | none => rfl
      | some cols => rfl

end Checked

namespace BareTyping

-- No breach: the stores are in order, and what is in them is as the outcome says.
def Shows (run : Except Breach (Outcome BareTyping)) (outcome : Outcome Typing) : Prop :=
  ∃ next, run = .ok next ∧ next.state.keys.Bounded ∧ next.map typing = outcome

variable {t : BareTyping}

theorem Shows.of_eq {next : BareTyping} {run : Except Breach (Outcome BareTyping)}
    {outcome : Outcome Typing} (hrun : run = .ok ⟨next, none⟩) (bounded : next.keys.Bounded)
    (houtcome : ⟨next.typing, none⟩ = outcome) : Shows run outcome :=
  ⟨_, hrun, bounded, houtcome⟩

theorem Shows.onward {run : Except Breach (Outcome BareTyping)} {outcome : Outcome Typing}
    {next : BareTyping → Except Breach (Outcome BareTyping)} {next' : Typing → Outcome Typing}
    (h : Shows run outcome)
    (hnext : ∀ t : BareTyping, t.keys.Bounded → Shows (next t) (next' t.typing)) :
    Shows (run >>= fun reached => Checked.onward reached next) (outcome.andThen next') := by
  obtain ⟨⟨state, error⟩, hrun, hbounded, houtcome⟩ := h
  subst hrun houtcome
  cases error with
  | none => exact hnext state hbounded
  | some error => exact ⟨⟨state, some error⟩, rfl, hbounded, rfl⟩

theorem length_waiting (bounded : t.keys.Bounded) :
    t.keys.waiting.length = t.keys.pendingLength := by
  have hpending := bounded.pending
  have hlength := bounded.pendingLength
  rw [BareKeys.waiting, List.length_take, Array.length_toList]
  omega

-- A flush leaves room for any key.
theorem flush_eq (bounded : t.keys.Bounded) :
    ∃ next, t.flush = .ok next ∧ next.state.keys.Bounded ∧ next.state.keys.pendingLength = 0 ∧
      next.map typing = t.typing.flush := by
  have hpending := bounded.pending
  have hlength := bounded.pendingLength
  unfold flush
  by_cases hnone : t.keys.pendingLength = 0
  · have hwaiting : t.typing.decoder.pending = [] := by
      apply List.eq_nil_of_length_eq_zero
      exact (length_waiting bounded).trans hnone
    rw [if_pos hnone]
    refine ⟨⟨t, none⟩, rfl, bounded, hnone, ?_⟩
    rw [Typing.flush, hwaiting, Writer.deliver_nil, ← hwaiting]
    rfl
  · have hslice : Checked.slice t.keys.pending 0 t.keys.pendingLength = .ok t.keys.waiting := by
      rw [Checked.slice_of_le (Nat.zero_le _) (by omega), BareKeys.waiting]
      simp
    rw [if_neg hnone]
    simp only [hslice, Checked.deliver_eq, bind, Except.bind]
    exact ⟨_, rfl, ⟨bounded.field, bounded.fieldLength, hpending, Nat.zero_le _⟩, rfl, rfl⟩

theorem shows_flush (bounded : t.keys.Bounded) : Shows t.flush t.typing.flush := by
  obtain ⟨next, hrun, hbounded, -, houtcome⟩ := flush_eq bounded
  exact ⟨next, hrun, hbounded, houtcome⟩

-- The copy covers the cells behind those that wait already, and fits.
theorem shows_gather (bounded : t.keys.Bounded) {bytes : Bytes}
    (hroom : t.keys.pendingLength + bytes.length ≤ 256) :
    Shows (t.gather bytes) ⟨t.typing.gather bytes, none⟩ := by
  have hpending := bounded.pending
  have hlength := length_waiting bounded
  have hadd : Checked.add sizeLimit t.keys.pendingLength bytes.length =
      .ok (t.keys.pendingLength + bytes.length) :=
    Checked.add_size (by omega)
  have hcopy : Checked.copyInto t.keys.pending t.keys.pendingLength
      (t.keys.pendingLength + bytes.length) bytes = .ok (t.keys.waiting ++ bytes ++
        t.keys.pending.toList.drop (t.keys.pendingLength + bytes.length)).toArray :=
    Checked.copyInto_of_fits rfl (by omega)
  unfold gather
  simp only [hadd, hcopy, bind, Except.bind]
  refine .of_eq rfl ⟨bounded.field, bounded.fieldLength, ?_, hroom⟩ ?_
  · simp only [List.size_toArray, List.length_append, List.length_drop, Array.length_toList,
      hlength]
    omega
  · have hwaiting : (t.keys.waiting ++ bytes ++
        t.keys.pending.toList.drop (t.keys.pendingLength + bytes.length)).take
          (t.keys.pendingLength + bytes.length) = t.keys.waiting ++ bytes := by
      apply List.take_left'
      rw [List.length_append, hlength]
    simp only [typing, BareKeys.decoder, BareKeys.waiting, Typing.gather] at hwaiting ⊢
    rw [hwaiting]
    rfl

theorem shows_queue (bounded : t.keys.Bounded) {bytes : Bytes} (hbytes : bytes.length ≤ 256) :
    Shows (t.queue bytes) (t.typing.queue bytes) := by
  have hlength := length_waiting bounded
  have hpending := bounded.pendingLength
  have hadd : Checked.add sizeLimit t.keys.pendingLength bytes.length =
      .ok (t.keys.pendingLength + bytes.length) :=
    Checked.add_size (by omega)
  have hfilled : t.typing.decoder.pending.length + bytes.length =
      t.keys.pendingLength + bytes.length := by
    rw [← hlength]
    rfl
  unfold queue Typing.queue
  simp only [hadd, hfilled]
  change Shows (if Typing.bufferCapacity < t.keys.pendingLength + bytes.length then _ else _) _
  by_cases hroom : t.keys.pendingLength + bytes.length ≤ Typing.bufferCapacity
  · rw [if_neg (Nat.not_lt.mpr hroom), if_pos hroom]
    exact shows_gather bounded hroom
  · obtain ⟨⟨next, error⟩, hrun, hbounded, hempty, houtcome⟩ := flush_eq bounded
    rw [if_pos (Nat.lt_of_not_le hroom), if_neg hroom, hrun, ← houtcome]
    cases error with
    | none => exact shows_gather hbounded (by omega)
    | some error => exact ⟨_, rfl, hbounded, rfl⟩

theorem finishWindowSize_eq (bounded : t.keys.Bounded) :
    ∃ next, t.finishWindowSize = .ok next ∧ next.keys.Bounded ∧
      next.typing = t.typing.finishWindowSize t.keys.field.toList := by
  unfold finishWindowSize Typing.finishWindowSize
  rw [Checked.parseField_eq bounded.field]
  cases WindowSize.ofField? t.keys.field.toList with
  | some size => exact ⟨_, rfl, bounded.sameStores rfl rfl rfl rfl, rfl⟩
  | none => exact ⟨_, rfl, bounded.sameStores rfl rfl rfl rfl, rfl⟩

theorem shows_obey (bounded : t.keys.Bounded) (directive : Directive) :
    Shows (t.obey directive) (t.typing.obey directive) := by
  cases directive with
  | newline => exact shows_queue bounded (by decide)
  | backslash => exact shows_queue bounded (by decide)
  | cursor key => exact shows_queue bounded (by simp [CursorKey.bytes])
  | dump => exact .of_eq rfl (bounded.sameStores rfl rfl rfl rfl) rfl
  | keepAlive => exact .of_eq rfl bounded rfl
  | windowSize =>
      exact .of_eq rfl ⟨bounded.field, Nat.zero_lt_succ 7, bounded.pending,
        bounded.pendingLength⟩ rfl

theorem toList_take_set {cells : Array UInt8} {i : Nat} (hi : i < cells.size) (byte : UInt8) :
    (cells.set i byte).toList.take (i + 1) = cells.toList.take i ++ [byte] := by
  have hlength : i < cells.toList.length := hi
  have htake : (cells.toList.take i ++ [byte]).length = i + 1 := by
    rw [List.length_append, List.length_take, List.length_singleton]
    omega
  rw [Array.toList_set, List.set_eq_take_append_cons_drop, if_pos hlength, List.append_cons]
  exact List.take_left' htake

-- The byte goes where the field ends so far, and there is always such a place.
theorem shows_windowSize (bounded : t.keys.Bounded) (hstage : t.keys.stage = .windowSize)
    (byte : UInt8) : Shows (t.step byte) (t.typing.step byte) := by
  have hfield := bounded.field
  have hshort := bounded.fieldLength
  have hplace : t.keys.fieldLength < t.keys.field.size := by omega
  have hwrite := Checked.write_of_lt byte hplace
  have hadd : Checked.add sizeLimit t.keys.fieldLength 1 = .ok (t.keys.fieldLength + 1) :=
    Checked.add_size (by omega)
  have htake := toList_take_set hplace byte
  have hlength : (t.keys.field.toList.take t.keys.fieldLength ++ [byte]).length =
      t.keys.fieldLength + 1 := by
    rw [List.length_append, List.length_take, List.length_singleton, Array.length_toList]
    omega
  have hphase : t.typing.decoder.phase =
      .windowSize (t.keys.field.toList.take t.keys.fieldLength) := by
    simp only [typing, BareKeys.decoder, BareKeys.phase, hstage]
  simp only [step, hstage, hwrite, hadd, Typing.step, hphase, hlength, bind, Except.bind]
  have hsize : (t.keys.field.set t.keys.fieldLength byte).size = 8 := by
    rw [Array.size_set, hfield]
  by_cases hfull : t.keys.fieldLength + 1 = Typing.windowFieldLength
  · have hnot : ¬ t.keys.fieldLength + 1 < Typing.windowFieldLength := by omega
    have hall : (t.keys.field.set t.keys.fieldLength byte).toList =
        t.keys.field.toList.take t.keys.fieldLength ++ [byte] := by
      rw [← htake, hfull]
      exact (List.take_of_length_le (Nat.le_of_eq hsize)).symm
    let filled : BareTyping := { t with keys := { t.keys with
      stage := .idle, field := t.keys.field.set t.keys.fieldLength byte, fieldLength := 0 } }
    have hfilled : filled.keys.Bounded :=
      ⟨hsize, Nat.zero_lt_succ 7, bounded.pending, bounded.pendingLength⟩
    obtain ⟨next, hrun, hbounded, htyping⟩ := finishWindowSize_eq hfilled
    have hfield' : filled.keys.field.toList =
        t.keys.field.toList.take t.keys.fieldLength ++ [byte] := hall
    rw [hfield'] at htyping
    rw [if_pos hfull, if_neg hnot, hrun]
    refine .of_eq rfl hbounded ?_
    rw [htyping]
    rfl
  · have hlt : t.keys.fieldLength + 1 < Typing.windowFieldLength := by
      unfold Typing.windowFieldLength at *
      omega
    rw [if_neg hfull, if_pos hlt]
    refine .of_eq rfl ⟨hsize, hlt, bounded.pending, bounded.pendingLength⟩ ?_
    simp only [typing, BareKeys.decoder, BareKeys.phase, hstage, htake]
    rfl

theorem shows_step (bounded : t.keys.Bounded) (byte : UInt8) :
    Shows (t.step byte) (t.typing.step byte) := by
  cases hstage : t.keys.stage with
  | idle =>
      have hphase : t.typing.decoder.phase = .idle := by
        simp only [typing, BareKeys.decoder, BareKeys.phase, hstage]
      simp only [step, hstage, Typing.step, hphase]
      split
      · exact .of_eq rfl (bounded.sameStores rfl rfl rfl rfl) rfl
      · exact shows_queue bounded (by simp)
  | directive =>
      have hphase : t.typing.decoder.phase = .directive := by
        simp only [typing, BareKeys.decoder, BareKeys.phase, hstage]
      have hentered : (t.enter .idle).keys.Bounded :=
        bounded.sameStores rfl rfl rfl rfl
      have htyping : (t.enter .idle).typing = t.typing.enter .idle := rfl
      simp only [step, hstage, Typing.step, hphase]
      rw [← htyping]
      cases Directive.ofByte? byte with
      | some directive => exact shows_obey hentered directive
      | none =>
          exact .of_eq rfl (bounded.sameStores rfl rfl rfl rfl) rfl
  | windowSize => exact shows_windowSize bounded hstage byte

theorem shows_steps (bounded : t.keys.Bounded) (input : Bytes) :
    Shows (t.steps input) (t.typing.steps input) := by
  induction input generalizing t with
  | nil => exact .of_eq rfl bounded rfl
  | cons byte rest ih =>
      rw [Typing.steps_cons]
      exact (shows_step bounded byte).onward fun next hnext => ih hnext

end BareTyping

theorem BareKeys.Bounded.feed {keys : BareKeys} (bounded : keys.Bounded) (modes : Modes)
    (pty : Writer) (input : Bytes) :
    BareTyping.Shows (keys.feed modes pty input) (keys.decoder.feed modes pty input) := by
  have hbegun : ({ keys with notices := #[] } : BareKeys).Bounded :=
    bounded.sameStores rfl rfl rfl rfl
  let begun : BareTyping := ⟨{ keys with notices := #[] }, modes, pty⟩
  have hsteps : BareTyping.Shows (begun.steps input) (begun.typing.steps input) :=
    BareTyping.shows_steps hbegun input
  exact hsteps.onward fun next hnext => BareTyping.shows_flush hnext

end TerminalRelay
