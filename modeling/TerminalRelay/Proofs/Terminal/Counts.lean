import TerminalRelay.Proofs.Editor.Reading

namespace TerminalRelay

namespace Sequence

-- How far a counted move goes: a count of none or zero is one, and a number of more than 64 bits
-- goes nowhere at all.
def reach (digits : Bytes) : Nat :=
  if Byte.decimal digits < Nat.pow 2 64 then max 1 (Byte.decimal digits) else 0

theorem count?_digits {digits : Bytes} (h : ∀ digit ∈ digits, Byte.isDigit digit = true) :
    count? digits =
      if Byte.decimal digits < Nat.pow 2 64 then some (max 1 (Byte.decimal digits)) else none := by
  have hall : digits.all Byte.isDigit = true := List.all_eq_true.mpr h
  simp only [count?, hall, true_and]

-- Up to 64 bits, a larger count reaches no less far than a smaller one.
theorem reach_mono {fewer digits : Bytes} (hle : Byte.decimal fewer ≤ Byte.decimal digits)
    (hbound : Byte.decimal digits < Nat.pow 2 64) : reach fewer ≤ reach digits := by
  rw [reach, reach, if_pos hbound, if_pos (Nat.lt_of_le_of_lt hle hbound)]
  omega

end Sequence

namespace Terminal

variable {config : Config} {t : Terminal}

-- What a control sequence does to the page is what its action does, or nothing without one.
theorem Sound.feed_control (sound : t.Sound) (hphase : t.phase = .normal) {body : Bytes}
    {final : UInt8} (hbody : ∀ byte ∈ body, Sequence.IsParameter byte)
    (hfinal : Sequence.IsControlFinal final) (hfits : body.length + 3 ≤ t.held.capacity) :
    (t.feed (Sequence.controlSequence body final)).state.SamePage
      ((Sequence.action? body final).elim t t.apply) := by
  have hcleared := sound.cleared
  have hground : t.cleared.reader = .ground := hcleared.reader_ground hphase
  obtain ⟨-, hedits⟩ := Reader.read_control_of_le hbody hfinal hfits
  obtain ⟨-, hpage⟩ := hcleared.interpret_editAll (Sequence.controlSequence body final)
  rw [hground, show t.cleared.held = t.held from rfl, hedits] at hpage
  refine (twins_feed t _).page.trans (hpage.trans ?_)
  have hstart : t.cleared.SamePage t := (twins_cleared t).page
  cases Sequence.action? body final with
  | none => exact hstart
  | some action => exact hstart.apply action

-- For a final byte that goes with a count, the action takes the count, if that is one.
theorem Sound.feed_counted (sound : t.Sound) (hphase : t.phase = .normal) {final : UInt8}
    (hfinal : Sequence.IsControlFinal final) {act : Nat → Action} {digits : Bytes}
    (haction : Sequence.action? digits final = (Sequence.count? digits).map act)
    (hdigits : ∀ digit ∈ digits, Byte.isDigit digit = true)
    (hfits : digits.length + 3 ≤ t.held.capacity) :
    (t.feed (Sequence.controlSequence digits final)).state.SamePage
      (if Byte.decimal digits < Nat.pow 2 64 then t.apply (act (max 1 (Byte.decimal digits)))
        else t) := by
  have hbody : ∀ byte ∈ digits, Sequence.IsParameter byte := fun byte hmem =>
    Sequence.isParameter_of_isDigit (hdigits byte hmem)
  have hpage := sound.feed_control hphase hbody hfinal hfits
  rw [haction, Sequence.count?_digits hdigits] at hpage
  split
  · rwa [if_pos ‹_›] at hpage
  · rwa [if_neg ‹_›] at hpage

-- The line after the cursor was told to go as far to the right as these digits say
def movedRight (t : Terminal) (digits : Bytes) : ByteRing :=
  (t.feed (Sequence.controlSequence digits 'C'.toUInt8)).state.line

-- The same for so many rows up
def movedUp (t : Terminal) (digits : Bytes) : ByteRing :=
  (t.feed (Sequence.controlSequence digits 'A'.toUInt8)).state.line

theorem Sound.movedRight (sound : t.Sound) (hphase : t.phase = .normal) {digits : Bytes}
    (hdigits : ∀ digit ∈ digits, Byte.isDigit digit = true)
    (hfits : digits.length + 3 ≤ t.held.capacity) (hinside : t.line.cursor < t.line.size) :
    (t.movedRight digits).toList = t.line.toList ∧
    (t.movedRight digits).cursor = min t.line.size (t.line.cursor + Sequence.reach digits) := by
  have hfinal : Sequence.IsControlFinal 'C'.toUInt8 := by decide
  have hline := (sound.feed_counted hphase hfinal rfl hdigits hfits).line
  refine ⟨hline.content.trans ?_, hline.cursor.trans ?_⟩
  · split
    · rw [apply, cursorForward, if_pos hinside]
      rfl
    · rfl
  · rw [Sequence.reach]
    split
    · rw [apply, cursorForward, if_pos hinside]
      exact Nat.min_comm _ _
    · exact (Nat.min_eq_right (Nat.le_of_lt hinside)).symm

theorem Sound.movedUp (sound : t.Sound) (hphase : t.phase = .normal) {size : WindowSize}
    (hwindow : t.modes.window = some size) {digits : Bytes}
    (hdigits : ∀ digit ∈ digits, Byte.isDigit digit = true)
    (hfits : digits.length + 3 ≤ t.held.capacity) :
    (t.movedUp digits).toList = t.line.toList ∧
    (t.movedUp digits).cursor = t.line.cursor - Sequence.reach digits * size.cols := by
  have hfinal : Sequence.IsControlFinal 'A'.toUInt8 := by decide
  have hline := (sound.feed_counted hphase hfinal rfl hdigits hfits).line
  refine ⟨hline.content.trans ?_, hline.cursor.trans ?_⟩
  · split
    · simp only [apply, cursorUp, hwindow]
      rfl
    · rfl
  · rw [Sequence.reach]
    split
    · simp only [apply, cursorUp, hwindow]
      exact Nat.min_eq_left (Nat.le_trans (Nat.sub_le _ _) t.line.cursor_le)
    · rw [Nat.zero_mul, Nat.sub_zero]

-- Counted moves leave the text of the line alone and stop at its ends, exactly, however large a
-- number of 64 bits is; up to there a larger count takes the cursor no less far. A number beyond
-- that does not move it.
theorem feed_countedMoves (h : t.Reachable config) (hphase : t.phase = .normal) {size : WindowSize}
    (hwindow : t.modes.window = some size) {fewer digits : Bytes}
    (hfewer : ∀ digit ∈ fewer, Byte.isDigit digit = true)
    (hdigits : ∀ digit ∈ digits, Byte.isDigit digit = true)
    (hfits' : fewer.length + 3 ≤ max config.escapeCapacity 8)
    (hfits : digits.length + 3 ≤ max config.escapeCapacity 8) :
    (t.line.cursor < t.line.size →
      (t.movedRight digits).toList = t.line.toList ∧
      (t.movedRight digits).cursor =
        min t.line.size (t.line.cursor + Sequence.reach digits)) ∧
    (t.movedUp digits).toList = t.line.toList ∧
    (t.movedUp digits).cursor = t.line.cursor - Sequence.reach digits * size.cols ∧
    (Byte.decimal fewer ≤ Byte.decimal digits → Byte.decimal digits < Nat.pow 2 64 →
      (t.line.cursor < t.line.size →
        (t.movedRight fewer).cursor ≤ (t.movedRight digits).cursor) ∧
      (t.movedUp digits).cursor ≤ (t.movedUp fewer).cursor) := by
  have sound := h.sound
  rw [← h.held_capacity] at hfits hfits'
  obtain ⟨htext, hcursor⟩ := sound.movedUp hphase hwindow hdigits hfits
  obtain ⟨-, hcursor'⟩ := sound.movedUp hphase hwindow hfewer hfits'
  refine ⟨sound.movedRight hphase hdigits hfits, htext, hcursor, fun hle hbound => ?_⟩
  have hreach := Sequence.reach_mono hle hbound
  refine ⟨fun hinside => ?_, ?_⟩
  · rw [(sound.movedRight hphase hfewer hfits' hinside).2,
      (sound.movedRight hphase hdigits hfits hinside).2]
    omega
  · rw [hcursor, hcursor']
    exact Nat.sub_le_sub_left (Nat.mul_le_mul_right _ hreach) _

-- Two columns, five bytes of text and the cursor in the middle of them
theorem feed_countedMoves_clamped :
    let t := ({ ofConfig { lineCapacity := 8 } with
      modes := { window := some ⟨24, 2⟩ } }.feed [0x61, 0x62, 0x63, 0x64, 0x65, 0x08, 0x08]).state
    let two := [0x30, 0x32]
    let largest := Bytes.ofText "18446744073709551615"
    (t.movedRight largest).toList = [0x61, 0x62, 0x63, 0x64, 0x65] ∧
    (t.movedRight largest).cursor = 5 ∧ (t.movedUp largest).cursor = 0 ∧
    (t.movedRight two).cursor ≤ 5 := by
  intro t two largest
  have hreachable : t.Reachable { lineCapacity := 8 } := .feed _ (.setModes _ .start)
  have hstate : t.phase = .normal ∧ t.modes.window = some ⟨24, 2⟩ ∧ t.line.cursor = 3 ∧
      t.line.size = 5 ∧ t.line.toList = [0x61, 0x62, 0x63, 0x64, 0x65] := by decide +kernel
  obtain ⟨hphase, hwindow, hcursor, hsize, htext⟩ := hstate
  have hdigits : (∀ digit ∈ two, Byte.isDigit digit = true) ∧
      (∀ digit ∈ largest, Byte.isDigit digit = true) ∧ two.length = 2 ∧ largest.length = 20 ∧
      Byte.decimal two = 2 ∧ Byte.decimal largest = 18446744073709551615 := by decide +kernel
  clear_value t two largest
  obtain ⟨hall, hall', hlength, hlength', htwo, hlargest⟩ := hdigits
  have hreach : Sequence.reach largest = 18446744073709551615 := by
    rw [Sequence.reach, hlargest]
    rfl
  obtain ⟨hright, -, hup, hmono⟩ := feed_countedMoves hreachable hphase hwindow hall hall'
    (by rw [hlength]; decide) (by rw [hlength']; decide)
  obtain ⟨htext', hcursor'⟩ := hright (by omega)
  obtain ⟨hle, -⟩ := hmono (by omega) (by rw [hlargest]; decide)
  have htwo' := hle (by omega)
  rw [hreach, hcursor, hsize] at hcursor'
  rw [hreach, hcursor] at hup
  rw [hcursor'] at htwo'
  exact ⟨htext'.trans htext, hcursor', hup, htwo'⟩

-- One more than 64 bits hold does not move the cursor at all.
theorem movedRight_tooLarge :
    let t := ({ ofConfig { lineCapacity := 16 } with
      modes := { window := some ⟨24, 80⟩ } }.feed [0x61, 0x62, 0x0d]).state
    t.phase = .normal ∧ t.line.cursor = 0 ∧ t.line.size = 2 ∧
    (t.movedRight (Bytes.ofText "18446744073709551615")).cursor = 2 ∧
    (t.movedRight (Bytes.ofText "18446744073709551616")).cursor = 0 := by
  decide +kernel

end Terminal

end TerminalRelay
