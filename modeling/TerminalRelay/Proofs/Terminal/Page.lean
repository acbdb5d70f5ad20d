import TerminalRelay.Proofs.Terminal.LineEnd
import TerminalRelay.Proofs.Terminal.Step

namespace TerminalRelay.Terminal

-- An edit works on the line, the modes and the plain log, and says what it did not do. The
-- accounts and the reading are left alone.
theorem edit_frame (t : Terminal) (edit : Edit) : ∃ modes line plainLog notices,
    (t.edit edit).state = { t with modes, line, plainLog, notices } := by
  cases edit with
  | keep => exact ⟨_, _, _, _, rfl⟩
  | put byte =>
      simp only [Terminal.edit, putLine]
      split <;> exact ⟨_, _, _, _, rfl⟩
  | endLine =>
      have hends := endsAs_endLine t
      rw [Terminal.edit]
      generalize t.endLine = outcome at hends ⊢
      cases hends <;> exact ⟨_, _, _, _, rfl⟩
  | returnCarriage => exact ⟨_, _, _, _, rfl⟩
  | stepBack => exact ⟨_, _, _, _, rfl⟩
  | act action =>
      cases action with
      | eraseToEnd => exact ⟨_, _, _, _, rfl⟩
      | cursorUp count =>
          simp only [Terminal.edit, apply, cursorUp]
          split <;> exact ⟨_, _, _, _, rfl⟩
      | cursorForward count =>
          simp only [Terminal.edit, apply, cursorForward]
          split
          · exact ⟨_, _, _, _, rfl⟩
          · split <;> exact ⟨_, _, _, _, rfl⟩
      | deleteChars count =>
          simp only [Terminal.edit, apply, deleteChars]
          split <;> exact ⟨_, _, _, _, rfl⟩
      | appCursor on => exact ⟨_, _, _, _, rfl⟩
      | altScreen mode on => exact ⟨_, _, _, _, rfl⟩

-- What edits work on and read: the modes, the line and the plain log
structure SamePage (t u : Terminal) : Prop where
  modes : t.modes = u.modes
  line : t.line.Alike u.line
  plainLog : t.plainLog = u.plainLog

theorem SamePage.refl (t : Terminal) : t.SamePage t := ⟨rfl, .refl _, rfl⟩

theorem SamePage.symm {t u : Terminal} (same : t.SamePage u) : u.SamePage t :=
  ⟨same.modes.symm, same.line.symm, same.plainLog.symm⟩

theorem SamePage.trans {t u v : Terminal} (same : t.SamePage u) (same' : u.SamePage v) :
    t.SamePage v :=
  ⟨same.modes.trans same'.modes, same.line.trans same'.line, same.plainLog.trans same'.plainLog⟩

theorem SamePage.putLine {t u : Terminal} (same : t.SamePage u) (byte : UInt8) :
    (t.putLine byte).error = (u.putLine byte).error ∧
    (t.putLine byte).state.SamePage (u.putLine byte).state := by
  unfold Terminal.putLine
  by_cases room : t.line.cursor < t.line.capacity
  · rw [dif_pos room, dif_pos (same.line.room room)]
    exact ⟨rfl, same.modes, same.line.put byte room, same.plainLog⟩
  · rw [dif_neg room, dif_neg (fun h => room (same.line.symm.room h)), same.line.capacity]
    exact ⟨rfl, same⟩

-- The log sees the line in the two slices it lies in.
theorem SamePage.endLine {t u : Terminal} (same : t.SamePage u) :
    t.endLine.error = u.endLine.error ∧ t.endLine.state.SamePage u.endLine.state := by
  have hmoved : (t.line.moveTo t.line.size).Alike (u.line.moveTo u.line.size) := by
    rw [same.line.size]
    exact same.line.moveTo _
  unfold Terminal.endLine
  simp only [same.plainLog, hmoved.slices]
  split
  · exact ⟨rfl, same.modes, hmoved.clearOnward, rfl⟩
  · split
    · exact ⟨rfl, same.modes, hmoved.clearOnward, rfl⟩
    · exact ⟨rfl, same.modes, hmoved, rfl⟩

theorem SamePage.apply {t u : Terminal} (same : t.SamePage u) (action : Action) :
    (t.apply action).SamePage (u.apply action) := by
  have hline := same.line
  cases action with
  | eraseToEnd =>
      refine ⟨same.modes, ?_, same.plainLog⟩
      simp only [Terminal.apply, hline.cursor]
      exact hline.truncate _
  | cursorUp count =>
      simp only [Terminal.apply, cursorUp, same.modes]
      split
      · refine ⟨rfl, ?_, same.plainLog⟩
        rw [hline.cursor]
        exact hline.moveTo _
      · exact same
  | cursorForward count =>
      simp only [Terminal.apply, cursorForward, hline.cursor, hline.size, hline.capacity]
      split
      · exact ⟨same.modes, hline.moveTo _, same.plainLog⟩
      · split
        · exact ⟨same.modes, hline.put _ (hline.symm.room ‹_›), same.plainLog⟩
        · exact ⟨same.modes, hline, same.plainLog⟩
  | deleteChars count =>
      simp only [Terminal.apply, deleteChars, hline.cursor, hline.size]
      split
      · exact ⟨same.modes, hline.remove _ _, same.plainLog⟩
      · exact ⟨same.modes, hline, same.plainLog⟩
  | appCursor on => exact ⟨by simp only [Terminal.apply, same.modes], hline, same.plainLog⟩
  | altScreen mode on => exact ⟨by simp only [Terminal.apply, same.modes], hline, same.plainLog⟩

theorem SamePage.edit {t u : Terminal} (same : t.SamePage u) (edit : Edit) :
    (t.edit edit).error = (u.edit edit).error ∧
    (t.edit edit).state.SamePage (u.edit edit).state := by
  cases edit with
  | keep => exact ⟨rfl, same⟩
  | put byte => exact same.putLine byte
  | endLine => exact same.endLine
  | returnCarriage =>
      refine ⟨rfl, same.modes, ?_, same.plainLog⟩
      simp only [Terminal.edit, returnCarriage, same.modes, same.line.cursor]
      exact same.line.moveTo _
  | stepBack =>
      refine ⟨rfl, same.modes, ?_, same.plainLog⟩
      simp only [Terminal.edit, stepBack, same.line.cursor]
      exact same.line.moveTo _
  | act action => exact ⟨rfl, same.apply action⟩

end TerminalRelay.Terminal
