import TerminalRelay.Proofs.Terminal.Run

namespace TerminalRelay.Terminal

theorem notices_endLine (t : Terminal) : t.endLine.state.notices = t.notices := by
  have hends := endsAs_endLine t
  generalize t.endLine = outcome at hends ⊢
  cases hends <;> rfl

-- Whether an edit has anything to say lies with the line alone.
theorem SamePage.notices_edit {t u : Terminal} (same : t.SamePage u)
    (hnotices : t.notices = u.notices) (edit : Edit) :
    (t.edit edit).state.notices = (u.edit edit).state.notices := by
  have hline := same.line
  cases edit with
  | keep => exact hnotices
  | put byte =>
      simp only [Terminal.edit, Terminal.putLine]
      split <;> split <;> exact hnotices
  | endLine =>
      simp only [Terminal.edit, notices_endLine]
      exact hnotices
  | returnCarriage => exact hnotices
  | stepBack => exact hnotices
  | act action =>
      cases action with
      | eraseToEnd => exact hnotices
      | cursorUp count =>
          simp only [Terminal.edit, Terminal.apply, cursorUp]
          split <;> split <;> exact hnotices
      | cursorForward count =>
          simp only [Terminal.edit, Terminal.apply, cursorForward, hline.cursor, hline.size,
            hline.capacity]
          split
          · exact hnotices
          · split
            · exact hnotices
            · exact congrArg (Array.push · Notice.forwardOnFullLine) hnotices
      | deleteChars count =>
          simp only [Terminal.edit, Terminal.apply, deleteChars, hline.cursor, hline.size]
          split
          · exact hnotices
          · exact congrArg (Array.push · (Notice.deletePastEnd count _)) hnotices
      | appCursor on => exact hnotices
      | altScreen mode on => exact hnotices

theorem Answers.notices {t : Terminal} {next : Reader × Report} {outcome : Outcome Terminal}
    (h : Answers t next outcome) :
    outcome.state.notices = ((t.accept next.2).edit next.2.edit).state.notices := by
  obtain ⟨held, straight, hcapacity, hlist, rfl⟩ := h
  have hpage : (({ t with held, phase := next.1.phase } : Terminal).accept next.2).SamePage
      (t.accept next.2) := ⟨rfl, .refl _, rfl⟩
  exact hpage.notices_edit rfl next.2.edit

-- Two terminals that differ at most in cells that hold nothing and in their raw logs
structure Alike (t u : Terminal) : Prop extends t.Twins u where
  forward : t.forward = u.forward
  viewers : t.viewers = u.viewers
  notices : t.notices = u.notices

theorem Alike.refl (t : Terminal) : t.Alike t := ⟨.refl t, rfl, rfl, rfl⟩

theorem Alike.symm {t u : Terminal} (alike : t.Alike u) : u.Alike t :=
  ⟨alike.toTwins.symm, alike.forward.symm, alike.viewers.symm, alike.notices.symm⟩

theorem Alike.trans {t u v : Terminal} (alike : t.Alike u) (alike' : u.Alike v) : t.Alike v :=
  ⟨alike.toTwins.trans alike'.toTwins, alike.forward.trans alike'.forward,
    alike.viewers.trans alike'.viewers, alike.notices.trans alike'.notices⟩

theorem Alike.step {t u : Terminal} (alike : t.Alike u) (sound : t.Sound) (sound' : u.Sound)
    (byte : UInt8) : (t.step byte).error = (u.step byte).error ∧
    (t.step byte).state.Alike (u.step byte).state := by
  obtain ⟨herror, htwins⟩ := alike.toTwins.step sound sound' byte
  have h := sound.settles byte
  have h' := sound'.settles byte
  have hnotices := (sound.answers_step byte).notices
  have hnotices' := (sound'.answers_step byte).notices
  rw [← alike.capacity, ← alike.reader] at h' hnotices'
  refine ⟨herror, htwins, ?_, ?_, ?_⟩
  · rw [h.forward, h'.forward, alike.forward]
  · rw [h.viewers, h'.viewers]
    simp only [accept, alike.forward, alike.viewers]
  · rw [hnotices, hnotices']
    have hpage : (t.accept (t.reader.read t.held.capacity byte).2).SamePage
        (u.accept (t.reader.read t.held.capacity byte).2) :=
      ⟨alike.page.modes, alike.page.line, alike.page.plainLog⟩
    refine hpage.notices_edit ?_ _
    simp only [accept, alike.notices]

theorem Alike.interpret {t u : Terminal} (alike : t.Alike u) (sound : t.Sound) (sound' : u.Sound)
    (chunk : Bytes) : (t.interpret chunk).error = (u.interpret chunk).error ∧
    (t.interpret chunk).state.Alike (u.interpret chunk).state := by
  obtain ⟨herror, hnext, -⟩ := interpret_parallel
    (fun _ _ byte hsound hsound' h => Alike.step h hsound hsound' byte) sound sound' alike chunk
  exact ⟨herror, hnext⟩

theorem Alike.cleared {t u : Terminal} (alike : t.Alike u) : t.cleared.Alike u.cleared :=
  ⟨⟨alike.capacity, alike.reader, alike.unhandled, alike.page.modes, alike.page.line,
    alike.page.plainLog⟩, alike.forward, rfl, rfl⟩

theorem Alike.setModes {t u : Terminal} (alike : t.Alike u) {modes modes' : Modes}
    (h : modes = modes') : ({ t with modes } : Terminal).Alike { u with modes := modes' } :=
  ⟨⟨alike.capacity, alike.reader, alike.unhandled, h, alike.page.line, alike.page.plainLog⟩,
    alike.forward, alike.viewers, alike.notices⟩

theorem Alike.setForward {t u : Terminal} (alike : t.Alike u) (on : Bool) :
    (t.setForward on).Alike (u.setForward on) :=
  ⟨⟨alike.capacity, alike.reader, alike.unhandled, alike.page.modes, alike.page.line,
    alike.page.plainLog⟩, rfl, alike.viewers, alike.notices⟩

theorem logRaw_congr {t u : Terminal} (hlog : t.rawLog = u.rawLog) (chunk : Bytes) :
    (t.logRaw chunk).error = (u.logRaw chunk).error ∧
    (t.logRaw chunk).state.rawLog = (u.logRaw chunk).state.rawLog := by
  simp only [logRaw, hlog]
  split
  · exact ⟨rfl, hlog⟩
  · exact ⟨rfl, rfl⟩

theorem Alike.feed {t u : Terminal} (alike : t.Alike u) (hlog : t.rawLog = u.rawLog)
    (sound : t.Sound) (sound' : u.Sound) (chunk : Bytes) :
    (t.feed chunk).error = (u.feed chunk).error ∧
    (t.feed chunk).state.Alike (u.feed chunk).state ∧
    (t.feed chunk).state.rawLog = (u.feed chunk).state.rawLog := by
  obtain ⟨herror, hread⟩ := alike.cleared.interpret sound.cleared sound'.cleared chunk
  have hkept : (t.cleared.interpret chunk).state.rawLog = t.rawLog :=
    (sound.cleared.reads_interpret chunk).rawLog
  have hkept' : (u.cleared.interpret chunk).state.rawLog = u.rawLog :=
    (sound'.cleared.reads_interpret chunk).rawLog
  obtain ⟨hfault, hlogged⟩ := logRaw_congr (hkept.trans (hlog.trans hkept'.symm)) chunk
  have hsame : (t.feed chunk).error = (u.feed chunk).error := by
    rw [feed_eq, feed_eq, conclude_error, conclude_error, hfault, herror]
  rw [feed_state, feed_state, hsame]
  refine ⟨rfl, ⟨?_, hread.forward, ?_, hread.notices⟩, hlogged⟩
  · exact ⟨hread.capacity, hread.reader, hread.unhandled, hread.page.modes, hread.page.line,
      hread.page.plainLog⟩
  · simp only [hread.viewers, hread.forward]

end TerminalRelay.Terminal
