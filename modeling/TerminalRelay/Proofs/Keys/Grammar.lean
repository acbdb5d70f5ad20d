import TerminalRelay.Keys
import TerminalRelay.Proofs.Byte
import Mathlib.Data.List.Basic

namespace TerminalRelay

-- The keystroke protocol, piece by piece
inductive Keystroke where
  | plain (byte : UInt8)
  | newline
  | backslash
  -- a key whose sequence ends in this letter
  | cursor (letter : UInt8)
  | dump
  | keepAlive
  | unknown (byte : UInt8)
  -- eight bytes, whatever they are
  | windowSize (field : Bytes)
deriving DecidableEq, Repr

namespace Keystroke

def ofDirective (byte : UInt8) : Keystroke :=
  if byte = 'n'.toUInt8 then newline
  else if byte = '\\'.toUInt8 then backslash
  else if byte = '^'.toUInt8 then cursor 'A'.toUInt8
  else if byte = 'v'.toUInt8 then cursor 'B'.toUInt8
  else if byte = '>'.toUInt8 then cursor 'C'.toUInt8
  else if byte = '<'.toUInt8 then cursor 'D'.toUInt8
  else if byte = 'e'.toUInt8 then cursor 'F'.toUInt8
  else if byte = 'h'.toUInt8 then cursor 'H'.toUInt8
  else if byte = 'd'.toUInt8 then dump
  else if byte = 'N'.toUInt8 then keepAlive
  else unknown byte

-- The directive for a key, by the letter its sequence ends in
def cursorDirective (letter : UInt8) : UInt8 :=
  if letter = 'A'.toUInt8 then '^'.toUInt8
  else if letter = 'B'.toUInt8 then 'v'.toUInt8
  else if letter = 'C'.toUInt8 then '>'.toUInt8
  else if letter = 'D'.toUInt8 then '<'.toUInt8
  else if letter = 'F'.toUInt8 then 'e'.toUInt8
  else 'h'.toUInt8

-- How a stroke is written
def bytes : Keystroke → Bytes
  | plain byte => [byte]
  | newline => [Byte.backslash, 'n'.toUInt8]
  | backslash => [Byte.backslash, Byte.backslash]
  | cursor letter => [Byte.backslash, cursorDirective letter]
  | dump => [Byte.backslash, 'd'.toUInt8]
  | keepAlive => [Byte.backslash, 'N'.toUInt8]
  | unknown byte => [Byte.backslash, byte]
  | windowSize field => Byte.backslash :: 'w'.toUInt8 :: field

theorem bytes_ofDirective (byte : UInt8) : (ofDirective byte).bytes = [Byte.backslash, byte] := by
  revert byte
  apply Byte.forall_byte
  decide +kernel

theorem ofDirective_ne_windowSize (byte : UInt8) (field : Bytes) :
    ofDirective byte ≠ windowSize field := by
  intro h
  have hbytes := bytes_ofDirective byte
  rw [h, bytes] at hbytes
  obtain ⟨rfl, rfl⟩ : 'w'.toUInt8 = byte ∧ field = [] := by simpa using hbytes
  exact absurd h (by decide)

-- The bytes a stroke stands for
def meaning (appCursor : Bool) : Keystroke → Bytes
  | plain byte => [byte]
  | newline => [Byte.newline]
  | backslash => [Byte.backslash]
  | cursor letter => [Byte.escape, if appCursor then 'O'.toUInt8 else '['.toUInt8, letter]
  | dump | keepAlive | unknown _ | windowSize _ => []

-- The window a stroke asks for: eight digits, and neither number zero
def requested : Keystroke → Option WindowSize
  | windowSize field =>
    if field.all Byte.isDigit ∧ 0 < Byte.decimal (field.take 4) ∧ 0 < Byte.decimal (field.drop 4)
    then some { rows := Byte.decimal (field.take 4), cols := Byte.decimal (field.drop 4) }
    else none
  | _ => none

-- The strokes against the protocol
def offends : Keystroke → Bool
  | unknown _ => true
  | windowSize field => (windowSize field).requested.isNone
  | _ => false

-- The window asked for last, or the one known before
def lastRequested (before : Option WindowSize) (strokes : List Keystroke) : Option WindowSize :=
  (strokes.filterMap requested).getLast?.or before

end Keystroke

-- What a stream begun in this phase began with
def KeyPhase.leftover : KeyPhase → Bytes
  | idle => []
  | directive => [Byte.backslash]
  | windowSize field => Byte.backslash :: 'w'.toUInt8 :: field

-- Strokes in front of those that follow
def Keystroke.before (strokes : List Keystroke) (later : List Keystroke × KeyPhase) :
    List Keystroke × KeyPhase :=
  (strokes ++ later.1, later.2)

-- The strokes of a whole stream, and the phase that the last one, if it is not complete, is left in
def keystrokes : Bytes → List Keystroke × KeyPhase
  | [] => ([], .idle)
  | [byte] => if byte = Byte.backslash then ([], .directive) else ([.plain byte], .idle)
  | byte :: next :: rest =>
    if byte ≠ Byte.backslash then Keystroke.before [.plain byte] (keystrokes (next :: rest))
    else if next ≠ 'w'.toUInt8 then Keystroke.before [.ofDirective next] (keystrokes rest)
    else if rest.length < 8 then ([], .windowSize rest)
    else Keystroke.before [.windowSize (rest.take 8)] (keystrokes (rest.drop 8))
termination_by bytes => bytes.length
decreasing_by
  all_goals simp only [List.length_cons, List.length_drop]
  all_goals omega

theorem Keystroke.before_append (left right : List Keystroke) (later : List Keystroke × KeyPhase) :
    before (left ++ right) later = before left (before right later) := by
  simp only [before, List.append_assoc]

theorem Keystroke.lastRequested_append (before : Option WindowSize) (left right : List Keystroke) :
    lastRequested before (left ++ right) = lastRequested (lastRequested before left) right := by
  simp only [lastRequested, List.filterMap_append, List.getLast?_append, Option.or_assoc]

theorem Keystroke.lastRequested_of_none {strokes : List Keystroke}
    (h : ∀ stroke ∈ strokes, stroke.requested = none) (before : Option WindowSize) :
    lastRequested before strokes = before := by
  have hnone : strokes.filterMap requested = [] := List.filterMap_eq_nil_iff.mpr h
  rw [lastRequested, hnone]
  rfl

theorem keystrokes_nil : keystrokes [] = ([], .idle) := by
  rw [keystrokes]

theorem keystrokes_plain {byte : UInt8} (hbyte : byte ≠ Byte.backslash) (rest : Bytes) :
    keystrokes (byte :: rest) = Keystroke.before [.plain byte] (keystrokes rest) := by
  cases rest with
  | nil =>
      rw [keystrokes_nil, keystrokes, if_neg hbyte]
      rfl
  | cons next rest => rw [keystrokes, if_pos hbyte]

theorem keystrokes_directive {byte : UInt8} (hbyte : byte ≠ 'w'.toUInt8) (rest : Bytes) :
    keystrokes (Byte.backslash :: byte :: rest) =
      Keystroke.before [.ofDirective byte] (keystrokes rest) := by
  rw [keystrokes, if_neg (not_not_intro rfl), if_pos hbyte]

theorem keystrokes_windowSize {field : Bytes} (hfield : field.length = 8) (rest : Bytes) :
    keystrokes (Byte.backslash :: 'w'.toUInt8 :: (field ++ rest)) =
      Keystroke.before [.windowSize field] (keystrokes rest) := by
  have hlength : ¬ (field ++ rest).length < 8 := by
    rw [List.length_append]
    omega
  rw [keystrokes, if_neg (not_not_intro rfl), if_neg (not_not_intro rfl), if_neg hlength, ← hfield,
    List.drop_left, List.take_left]

theorem keystrokes_field {stream field : Bytes}
    (h : .windowSize field ∈ (keystrokes stream).1) : field.length = 8 := by
  fun_induction keystrokes stream with
  | case1 => exact absurd h (by simp)
  | case2 => exact absurd h (by simp)
  | case3 byte hbyte => exact absurd h (by simp)
  | case4 byte next stream hbyte ih =>
      rcases List.mem_append.mp h with hfirst | hlater
      · exact absurd hfirst (by simp)
      · exact ih hlater
  | case5 byte next stream hbyte hnext ih =>
      rcases List.mem_append.mp h with hfirst | hlater
      · exact absurd (List.mem_singleton.mp hfirst).symm
          (Keystroke.ofDirective_ne_windowSize next field)
      · exact ih hlater
  | case6 byte next stream hbyte hnext hshort => exact absurd h (by simp)
  | case7 byte next stream hbyte hnext hlong ih =>
      rcases List.mem_append.mp h with hfirst | hlater
      · obtain rfl := Keystroke.windowSize.inj (List.mem_singleton.mp hfirst)
        rw [List.length_take]
        omega
      · exact ih hlater

theorem Keystroke.bytes_before (stroke : Keystroke) (later : List Keystroke × KeyPhase) :
    (before [stroke] later).1.flatMap bytes ++ (before [stroke] later).2.leftover =
      stroke.bytes ++ (later.1.flatMap bytes ++ later.2.leftover) := by
  simp only [before, List.flatMap_append, List.flatMap_singleton, List.append_assoc]

-- The strokes and the one begun are all of the stream, in its order.
theorem keystrokes_bytes (stream : Bytes) :
    (keystrokes stream).1.flatMap Keystroke.bytes ++ (keystrokes stream).2.leftover = stream := by
  fun_induction keystrokes stream with
  | case1 => rfl
  | case2 => rfl
  | case3 byte hbyte => rfl
  | case4 byte next rest hbyte ih =>
      rw [Keystroke.bytes_before, ih]
      rfl
  | case5 byte next rest hbyte hnext ih =>
      rw [Decidable.not_not] at hbyte
      rw [Keystroke.bytes_before, ih, Keystroke.bytes_ofDirective, hbyte]
      rfl
  | case6 byte next rest hbyte hnext hshort =>
      rw [Decidable.not_not] at hbyte hnext
      rw [hbyte, hnext]
      rfl
  | case7 byte next rest hbyte hnext hshort ih =>
      rw [Decidable.not_not] at hbyte hnext
      rw [Keystroke.bytes_before, ih, Keystroke.bytes, List.cons_append, List.cons_append,
        List.take_append_drop, hbyte, hnext]

-- The bytes of an unfinished window size
def KeyPhase.Partial (phase : KeyPhase) : Prop :=
  ∀ field, phase = .windowSize field → field.length < 8

theorem KeyPhase.Partial.idle : KeyPhase.idle.Partial := by
  intro field hfield
  exact absurd hfield (by simp)

theorem KeyPhase.Partial.directive : KeyPhase.directive.Partial := by
  intro field hfield
  exact absurd hfield (by simp)

theorem keystrokes_leftover {phase : KeyPhase} (h : phase.Partial) :
    keystrokes phase.leftover = ([], phase) := by
  cases phase with
  | idle => exact keystrokes_nil
  | directive => rw [KeyPhase.leftover, keystrokes, if_pos rfl]
  | windowSize field =>
      rw [KeyPhase.leftover, keystrokes, if_neg (not_not_intro rfl), if_neg (not_not_intro rfl),
        if_pos (h field rfl)]

end TerminalRelay
