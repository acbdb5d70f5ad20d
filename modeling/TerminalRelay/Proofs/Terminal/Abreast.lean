import TerminalRelay.Proofs.Terminal.Lines

namespace TerminalRelay.Terminal

-- A plain log, if there is one, that in the end takes all it is offered
def PlainLogWilling (t : Terminal) : Prop :=
  ∀ log, t.plainLog = some log → log.Gentle

-- What edits work on, but for the log
structure SameLine (t u : Terminal) : Prop where
  modes : t.modes = u.modes
  line : t.line.Alike u.line

theorem SamePage.sameLine {t u : Terminal} (same : t.SamePage u) : t.SameLine u :=
  ⟨same.modes, same.line⟩

theorem SameLine.symm {t u : Terminal} (same : t.SameLine u) : u.SameLine t :=
  ⟨same.modes.symm, same.line.symm⟩

theorem SameLine.trans {t u v : Terminal} (same : t.SameLine u) (same' : u.SameLine v) :
    t.SameLine v :=
  ⟨same.modes.trans same'.modes, same.line.trans same'.line⟩

theorem PlainLogWilling.endLine {t : Terminal} (hlog : t.PlainLogWilling) :
    t.endLine.error = none ∧ t.endLine.state.PlainLogWilling ∧
    t.endLine.state.modes = t.modes ∧
    t.endLine.state.line = (t.line.moveTo t.line.size).clearOnward := by
  have hends := endsAs_endLine t
  generalize t.endLine = outcome at hends ⊢
  cases hends with
  | unlogged hnone =>
      refine ⟨rfl, ?_, rfl, rfl⟩
      intro log hsome
      exact absurd (hnone.symm.trans hsome) (by simp)
  | @logged log last hsome hdelivered =>
      have haccepts := (hlog log hsome).accepts_deliverLine t.line
      rw [hdelivered] at haccepts
      refine ⟨rfl, ?_, rfl, rfl⟩
      rintro log' ⟨⟩
      exact haccepts.gentle
  | @refused log last error hsome hdelivered =>
      have haccepts := (hlog log hsome).accepts_deliverLine t.line
      rw [hdelivered] at haccepts
      exact absurd haccepts.error (by simp)

theorem PlainLogWilling.edit {t : Terminal} (hlog : t.PlainLogWilling) (edit : Edit) :
    (t.edit edit).state.PlainLogWilling := by
  by_cases hedit : edit = .endLine
  · subst hedit
    exact hlog.endLine.2.1
  · intro log hsome
    rw [edit_plainLog t hedit] at hsome
    exact hlog log hsome

-- Logs that take everything make no difference to the line.
theorem SameLine.edit {t u : Terminal} (same : t.SameLine u) (ht : t.PlainLogWilling)
    (hu : u.PlainLogWilling) (edit : Edit) : (t.edit edit).error = (u.edit edit).error ∧
    (t.edit edit).state.SameLine (u.edit edit).state := by
  by_cases hedit : edit = .endLine
  · subst hedit
    obtain ⟨herror, -, hmodes, hline⟩ := ht.endLine
    obtain ⟨herror', -, hmodes', hline'⟩ := hu.endLine
    refine ⟨herror.trans herror'.symm, (hmodes.trans same.modes).trans hmodes'.symm, ?_⟩
    simp only [Terminal.edit, hline, hline', same.line.size]
    exact (same.line.moveTo _).clearOnward
  · -- with the other's log, both are on one page
    have hpage : ({ t with plainLog := u.plainLog } : Terminal).SamePage u :=
      ⟨same.modes, same.line, rfl⟩
    obtain ⟨herror, hsame⟩ := hpage.edit edit
    rw [edit_setPlainLog t hedit] at herror hsame
    exact ⟨herror, hsame.modes, hsame.line⟩

-- Two terminals that read on in the same way and come to the same lines, whatever they log, record
-- and show on the way
structure Abreast (t u : Terminal) : Prop where
  capacity : t.held.capacity = u.held.capacity
  reader : t.reader = u.reader
  line : t.SameLine u
  willing : t.PlainLogWilling
  willing' : u.PlainLogWilling

theorem PlainLogWilling.of_page {t u : Terminal} (hlog : u.PlainLogWilling) (same : t.SamePage u) :
    t.PlainLogWilling := by
  intro log hsome
  exact hlog log (same.plainLog.symm.trans hsome)

theorem Abreast.step {t u : Terminal} (abreast : t.Abreast u) (sound : t.Sound) (sound' : u.Sound)
    (byte : UInt8) : (t.step byte).error = (u.step byte).error ∧
    (t.step byte).state.Abreast (u.step byte).state := by
  have h := sound.settles byte
  have h' := sound'.settles byte
  rw [← abreast.capacity, ← abreast.reader] at h'
  obtain ⟨herror, hline⟩ := abreast.line.edit abreast.willing abreast.willing'
    (t.reader.read t.held.capacity byte).2.edit
  refine ⟨?_, ?_, ?_, ?_, ?_, ?_⟩
  · rw [h.error, h'.error, herror]
  · rw [h.capacity, h'.capacity, abreast.capacity]
  · rw [h.reader, h'.reader]
  · exact (h.page.sameLine.trans hline).trans h'.page.sameLine.symm
  · exact (abreast.willing.edit _).of_page h.page
  · exact (abreast.willing'.edit _).of_page h'.page

theorem Abreast.endsLine {t u : Terminal} (abreast : t.Abreast u) (byte : UInt8) :
    t.endsLine byte = u.endsLine byte := by
  have hphase : t.phase = u.phase := congrArg Reader.phase abreast.reader
  simp only [Terminal.endsLine, hphase]

theorem Abreast.interpret {t u : Terminal} (abreast : t.Abreast u) (sound : t.Sound)
    (sound' : u.Sound) (chunk : Bytes) :
    (t.interpret chunk).error = (u.interpret chunk).error ∧
    (t.interpret chunk).state.Abreast (u.interpret chunk).state ∧
    t.endedLines chunk = u.endedLines chunk := by
  induction chunk generalizing t u with
  | nil => exact ⟨rfl, abreast, rfl⟩
  | cons byte rest ih =>
      obtain ⟨herror, hstep⟩ := abreast.step sound sound' byte
      have hsound := sound.step byte
      have hsound' := sound'.step byte
      simp only [Terminal.interpret, endedLines, abreast.endsLine, abreast.line.line.content]
      generalize t.step byte = outcome at herror hstep hsound
      generalize u.step byte = outcome' at herror hstep hsound'
      obtain ⟨next, error⟩ := outcome
      obtain ⟨next', error'⟩ := outcome'
      dsimp only at herror
      subst herror
      cases error with
      | none =>
          obtain ⟨hsame, hrest, hlines⟩ := ih hstep hsound hsound'
          exact ⟨hsame, hrest, congrArg (_ ++ ·) hlines⟩
      | some error => exact ⟨rfl, hstep, rfl⟩

theorem PlainLogWilling.interpret {t : Terminal} (hlog : t.PlainLogWilling) (sound : t.Sound)
    (chunk : Bytes) : (t.interpret chunk).state.PlainLogWilling := by
  have hself : t.Abreast t := ⟨rfl, rfl, ⟨rfl, .refl _⟩, hlog, hlog⟩
  exact (hself.interpret sound sound chunk).2.1.willing

-- A newline at worst goes on with a title, so that nothing but the log could refuse it.
theorem PlainLogWilling.step_newline {t : Terminal} (hlog : t.PlainLogWilling) (sound : t.Sound) :
    (t.step Byte.newline).error = none := by
  rw [(sound.settles Byte.newline).error, sound.coherent.edit_newline]
  split
  · rfl
  · exact hlog.endLine.1

end TerminalRelay.Terminal
