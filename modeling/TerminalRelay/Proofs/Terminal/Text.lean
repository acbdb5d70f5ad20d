import TerminalRelay.Proofs.Terminal.Lines

namespace TerminalRelay

-- Whether a byte goes to the line. A title keeps all its bytes to itself, and a sequence the
-- printable ones; any other byte gives the sequence up and is text.
def Phase.writes (phase : Phase) (byte : UInt8) : Bool :=
  Terminal.isLineByte byte && match phase with
    | .normal => true
    | .title false => false
    | .collecting | .title true | .overlong => !Byte.isPrintable byte

-- The edits that text makes; the others are made by control bytes and sequences.
def Edit.isText : Edit → Bool
  | put _ => true
  | endLine => true
  | keep => false
  | returnCarriage => false
  | stepBack => false
  | act _ => false

namespace Reader

variable {capacity : Nat}

theorem edit_ofText_eq_put {byte written : UInt8} :
    Edit.ofText byte = .put written ↔ Terminal.isLineByte byte = true ∧ written = byte := by
  unfold Edit.ofText
  by_cases hnewline : byte = Byte.newline
  · subst hnewline
    simp [show Terminal.isLineByte Byte.newline = false by decide]
  · rw [if_neg hnewline]
    by_cases hline : Terminal.isLineByte byte = true
    · simp [hline, eq_comm]
    · simp [hline]

theorem readOverlong_eq_put {held : Bytes} {byte written : UInt8} :
    (readOverlong held byte).2.edit = .put written ↔
      Phase.overlong.writes byte = true ∧ written = byte := by
  have hprintable := Sequence.isPrintable_iff_control byte
  unfold readOverlong Phase.writes
  by_cases hparameter : Sequence.IsParameter byte
  · simp [hparameter, hprintable.mpr (.inl hparameter)]
  by_cases hfinal : Sequence.IsControlFinal byte
  · simp [hparameter, hfinal, hprintable.mpr (.inr hfinal)]
  have hnot : Byte.isPrintable byte = false := by
    rw [← Bool.not_eq_true, hprintable]
    simp [hparameter, hfinal]
  rw [if_neg hparameter, if_neg hfinal, hnot]
  by_cases hescape : byte = Byte.escape
  · subst hescape
    simp [show Terminal.isLineByte Byte.escape = false by decide]
  · rw [if_neg hescape]
    simpa [readText] using edit_ofText_eq_put

theorem readScanned_eq_put {raw : Bytes} {byte written : UInt8} {outcome : Scan} :
    (readScanned raw byte outcome).2.edit = .put written ↔
      outcome = .aborted ∧ Terminal.isLineByte byte = true ∧ written = byte := by
  cases outcome with
  | pending => simp [readScanned]
  | title => simp [readScanned]
  | known action => simp [readScanned]
  | unknown =>
      dsimp only [readScanned]
      split <;> simp [Report.ofUnhandled]
  | aborted => simpa [readScanned] using edit_ofText_eq_put

theorem readHeld_eq_put {held : Bytes} (hopen : Sequence.Open held) {byte written : UInt8} :
    (readHeld capacity held byte).2.edit = .put written ↔
      Phase.collecting.writes byte = true ∧ written = byte := by
  by_cases hescape : byte = Byte.escape
  · subst hescape
    simp [readHeld, Phase.writes, show Terminal.isLineByte Byte.escape = false by decide]
  rw [readHeld, if_neg hescape]
  split
  · rw [readScanned_eq_put, Sequence.scan_eq_aborted_iff hopen]
    simp [Phase.writes, and_left_comm, and_assoc]
  · exact readOverlong_eq_put

-- Where a byte goes to the line is a matter of the phase alone, whatever the store holds.
theorem Coherent.edit_eq_put {reader : Reader} (hcoherent : reader.Coherent capacity)
    (byte written : UInt8) : (reader.read capacity byte).2.edit = .put written ↔
      reader.phase.writes byte = true ∧ written = byte := by
  obtain ⟨phase, held⟩ := reader
  by_cases hcontrol : byte = Byte.carriageReturn ∨ byte = Byte.backspace ∨ byte = Byte.bel
  · have hline : Terminal.isLineByte byte = false := by
      rcases hcontrol with rfl | rfl | rfl <;> decide
    have hedit : ∀ written, (Reader.read capacity ⟨phase, held⟩ byte).2.edit ≠ .put written := by
      intro written
      rcases hcontrol with rfl | rfl | rfl
      · simp [Reader.read]
      · rw [Reader.read, if_neg (by decide), if_pos rfl]
        split <;> simp
      · rw [Reader.read, if_neg (by decide), if_neg (by decide), if_pos rfl]
        split <;> simp
    simp [hedit, Phase.writes, hline]
  simp only [not_or] at hcontrol
  obtain ⟨hreturn, hbackspace, hbel⟩ := hcontrol
  rw [Reader.read, if_neg hreturn, if_neg hbackspace, if_neg hbel]
  cases phase with
  | normal =>
      dsimp only
      by_cases hescape : byte = Byte.escape
      · subst hescape
        simp [Phase.writes, show Terminal.isLineByte Byte.escape = false by decide]
      · rw [if_neg hescape]
        simpa [readText, Phase.writes] using edit_ofText_eq_put
  | collecting => exact readHeld_eq_put hcoherent.1
  | title sawEscape =>
      cases sawEscape with
      | false =>
          dsimp only
          split <;> simp [Phase.writes]
      | true =>
          dsimp only
          by_cases hbackslash : byte = Byte.backslash
          · subst hbackslash
            simp [Phase.writes, show Byte.isPrintable Byte.backslash = true by decide]
          · rw [if_neg hbackslash]
            exact readHeld_eq_put .escape
  | overlong => exact readOverlong_eq_put

theorem Coherent.isText_edit {reader : Reader} (hcoherent : reader.Coherent capacity)
    (byte : UInt8) : (reader.read capacity byte).2.edit.isText = true ↔
      reader.phase.writes byte = true ∨ (byte = Byte.newline ∧ reader.phase ≠ .title false) := by
  have hput := hcoherent.edit_eq_put byte byte
  have hend : (reader.read capacity byte).2.edit = .endLine ↔
      byte = Byte.newline ∧ reader.phase ≠ .title false := by
    by_cases hbyte : byte = Byte.newline
    · subst hbyte
      rw [hcoherent.edit_newline]
      by_cases hphase : reader.phase = .title false <;> simp [hphase]
    · simp [hbyte, edit_ne_endLine hbyte]
  rw [and_iff_left rfl] at hput
  have hwritten (written : UInt8) (hedit : (reader.read capacity byte).2.edit = .put written) :
      written = byte := ((hcoherent.edit_eq_put byte written).mp hedit).2
  rw [← hput, ← hend]
  generalize (reader.read capacity byte).2.edit = edit at hwritten ⊢
  cases edit with
  | put written => simp [Edit.isText, hwritten written rfl]
  | keep => simp [Edit.isText]
  | endLine => simp [Edit.isText]
  | returnCarriage => simp [Edit.isText]
  | stepBack => simp [Edit.isText]
  | act action => simp [Edit.isText]

end Reader

end TerminalRelay
