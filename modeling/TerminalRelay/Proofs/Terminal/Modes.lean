import TerminalRelay.Proofs.Terminal.Run

namespace TerminalRelay

-- What an edit makes of the modes. None of them sets the window.
def Edit.modes (edit : Edit) (before : Modes) : Modes :=
  match edit with
  | .act (.appCursor on) => { before with appCursor := on }
  | .act (.altScreen _ on) => { before with altScreen := on }
  | _ => before

theorem Edit.modes_window (edit : Edit) (before : Modes) :
    (edit.modes before).window = before.window := by
  unfold modes
  split <;> rfl

-- The modes after these reports, one on top of the other
def Report.modesAfter (before : Modes) (reports : List Report) : Modes :=
  reports.foldl (fun modes report => report.edit.modes modes) before

theorem Report.window_modesAfter (before : Modes) (reports : List Report) :
    (modesAfter before reports).window = before.window := by
  induction reports generalizing before with
  | nil => rfl
  | cons report rest ih =>
      have hrest := ih (report.edit.modes before)
      exact hrest.trans (report.edit.modes_window before)

namespace Terminal

theorem modes_endLine (t : Terminal) : t.endLine.state.modes = t.modes := by
  have hends := endsAs_endLine t
  generalize t.endLine = outcome at hends ⊢
  cases hends <;> rfl

-- Whether an edit fails or not, the modes come out as it says.
theorem modes_edit (t : Terminal) (edit : Edit) :
    (t.edit edit).state.modes = edit.modes t.modes := by
  cases edit with
  | keep => rfl
  | put byte =>
      simp only [Terminal.edit, putLine]
      split <;> rfl
  | endLine => exact modes_endLine t
  | returnCarriage => rfl
  | stepBack => rfl
  | act action =>
      cases action with
      | eraseToEnd => rfl
      | cursorUp count =>
          simp only [Terminal.edit, apply, cursorUp]
          split <;> rfl
      | cursorForward count =>
          simp only [Terminal.edit, apply, cursorForward]
          split
          · rfl
          · split <;> rfl
      | deleteChars count =>
          simp only [Terminal.edit, apply, deleteChars]
          split <;> rfl
      | appCursor on => rfl
      | altScreen mode on => rfl

theorem Sound.modes_step {t : Terminal} (sound : t.Sound) (byte : UInt8) :
    (t.step byte).state.modes =
      (t.reader.read t.held.capacity byte).2.edit.modes t.modes := by
  have hpage := (sound.settles byte).page
  rw [hpage.modes, modes_edit]

-- The modes come from the bytes that are read, with the last of them even where it fails.
theorem Sound.modes_interpret {t : Terminal} (sound : t.Sound) (chunk : Bytes) :
    (t.interpret chunk).state.modes =
      Report.modesAfter t.modes (t.reader.reports t.held.capacity (t.consumed chunk)) := by
  induction chunk generalizing t with
  | nil => rfl
  | cons byte rest ih =>
      have hmodes := sound.modes_step byte
      have hstep := sound.settles byte
      have hcapacity := hstep.capacity
      have hreader := hstep.reader
      have hsound := sound.step byte
      rw [interpret, consumed]
      generalize t.step byte = outcome at hmodes hcapacity hreader hsound
      obtain ⟨next, error⟩ := outcome
      dsimp only at hmodes hcapacity hreader hsound
      cases error with
      | none =>
          have hrest := ih hsound
          rw [hmodes, hcapacity, hreader] at hrest
          exact hrest
      | some error => exact hmodes

theorem Sound.modes_feed {t : Terminal} (sound : t.Sound) (chunk : Bytes) :
    (t.feed chunk).state.modes = Report.modesAfter t.modes
      (t.reader.reports t.held.capacity (t.cleared.consumed chunk)) := by
  have hread := sound.cleared.modes_interpret chunk
  rw [feed_state]
  exact hread

theorem Sound.window_feed {t : Terminal} (sound : t.Sound) (chunk : Bytes) :
    (t.feed chunk).state.modes.window = t.modes.window := by
  rw [sound.modes_feed, Report.window_modesAfter]

end Terminal

end TerminalRelay
