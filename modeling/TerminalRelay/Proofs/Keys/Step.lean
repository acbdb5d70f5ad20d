import TerminalRelay.Proofs.Keys.Reading

namespace TerminalRelay

namespace Typing

-- A byte that is only kept in mind
theorem types_silent {typing : Typing} (gentle : typing.pty.Gentle) {phase : KeyPhase}
    {byte : UInt8} (unfinished : phase.Partial)
    (hleftover : phase.leftover = typing.decoder.phase.leftover ++ [byte]) :
    typing.Types [byte] [] ⟨typing.enter phase, none⟩ := by
  refine ⟨rfl, gentle, unfinished, ?_, ?_, rfl, rfl, ?_, rfl⟩
  · intro rest
    simp only [enter, hleftover, List.append_assoc]
    rfl
  · simp only [List.flatMap_nil, List.append_nil]
    rfl
  · simp [enter]

theorem queues_nothing {typing : Typing} (gentle : typing.pty.Gentle) :
    typing.Queues [] ⟨typing, none⟩ :=
  ⟨rfl, gentle, (List.append_nil _).symm, rfl, rfl⟩

theorem types_directive {typing : Typing} (gentle : typing.pty.Gentle)
    (hphase : typing.decoder.phase = .directive) (byte : UInt8) :
    ∃ strokes, typing.Types [byte] strokes (typing.step byte) := by
  have hentered : (typing.enter .idle).pty.Gentle := gentle
  have hparsed : ∀ {stroke : Keystroke}, byte ≠ 'w'.toUInt8 → Keystroke.ofDirective byte = stroke →
      ∀ rest, keystrokes (typing.decoder.phase.leftover ++ ([byte] ++ rest)) =
        Keystroke.before [stroke] (keystrokes rest) := by
    intro stroke hbyte hstroke rest
    rw [hphase, ← hstroke]
    exact keystrokes_directive hbyte rest
  have hstroke := ofDirective_eq byte
  have hwindow := ofByte?_windowSize byte
  simp only [step, hphase]
  cases hdirective : Directive.ofByte? byte with
  | none =>
      rw [hdirective] at hstroke hwindow
      have hparsed' := hparsed (fun h => absurd (hwindow.mpr h) (by simp)) hstroke
      refine ⟨[.unknown byte], rfl, gentle, .idle, hparsed', ?_, rfl, rfl, ?_, rfl⟩
      · exact (List.append_nil _).symm
      · simp [violation, enter]
  | some directive =>
      rw [hdirective] at hstroke hwindow
      have hbyte : directive ≠ .windowSize → byte ≠ 'w'.toUInt8 := by
        intro hne h
        exact hne (Option.some.inj (hwindow.mpr h))
      cases directive with
      | newline =>
          exact ⟨[.newline], (queues_queue hentered _).types (hparsed (hbyte (by simp)) hstroke) rfl
            (by simp) rfl⟩
      | backslash =>
          exact ⟨[.backslash], (queues_queue hentered _).types
            (hparsed (hbyte (by simp)) hstroke) rfl (by simp) rfl⟩
      | cursor key =>
          exact ⟨[.cursor key.final], (queues_queue hentered _).types
            (hparsed (hbyte (by simp)) hstroke) rfl (by simp) rfl⟩
      | dump =>
          refine ⟨[.dump], rfl, gentle, .idle, hparsed (hbyte (by simp)) hstroke, ?_, rfl, rfl, ?_,
            rfl⟩
          · exact (List.append_nil _).symm
          · exact (Bool.or_true _).symm
      | keepAlive =>
          exact ⟨[.keepAlive], (queues_nothing hentered).types
            (hparsed (hbyte (by simp)) hstroke) rfl (by simp) rfl⟩
      | windowSize =>
          refine ⟨[], types_silent gentle ?_ ?_⟩
          · intro field hfield
            cases hfield
            decide
          · rw [hphase, hwindow.mp rfl]
            rfl

theorem types_windowSize {typing : Typing} (gentle : typing.pty.Gentle) {field : Bytes}
    (hphase : typing.decoder.phase = .windowSize field) (hfield : field.length < 8) (byte : UInt8) :
    ∃ strokes, typing.Types [byte] strokes (typing.step byte) := by
  simp only [step, hphase]
  by_cases hshort : (field ++ [byte]).length < windowFieldLength
  · rw [if_pos hshort]
    refine ⟨[], types_silent gentle ?_ ?_⟩
    · intro field' hfield'
      cases hfield'
      exact hshort
    · rw [hphase]
      rfl
  · rw [if_neg hshort]
    have hlength : (field ++ [byte]).length = 8 := by
      rw [windowFieldLength, List.length_append, List.length_singleton] at *
      omega
    have hparsed : ∀ rest, keystrokes (typing.decoder.phase.leftover ++ ([byte] ++ rest)) =
        Keystroke.before [.windowSize (field ++ [byte])] (keystrokes rest) := by
      intro rest
      rw [hphase, ← keystrokes_windowSize hlength, List.append_assoc]
      rfl
    have hrequested := requested_windowSize (field ++ [byte])
    refine ⟨[.windowSize (field ++ [byte])], ?_⟩
    unfold finishWindowSize
    cases hsize : WindowSize.ofField? (field ++ [byte]) with
    | some size =>
        rw [hsize] at hrequested
        refine ⟨rfl, gentle, .idle, hparsed, (List.append_nil _).symm, ?_, ?_, ?_, ?_⟩
        · simp [Keystroke.lastRequested, hrequested, resizeTo, enter]
        · simp [Keystroke.lastRequested, hrequested, resizeTo]
        · simp [resizeTo, enter]
        · simp [resizeTo, enter, Keystroke.offends, hrequested]
    | none =>
        rw [hsize] at hrequested
        refine ⟨rfl, gentle, .idle, hparsed, (List.append_nil _).symm, ?_, ?_, ?_, ?_⟩
        · simp [Keystroke.lastRequested, hrequested, violation, enter]
        · simp [Keystroke.lastRequested, hrequested, violation, enter]
        · simp [violation, enter]
        · simp [violation, enter, Keystroke.offends, hrequested]

theorem types_step {typing : Typing} (gentle : typing.pty.Gentle)
    (unfinished : typing.decoder.phase.Partial) (byte : UInt8) :
    ∃ strokes, typing.Types [byte] strokes (typing.step byte) := by
  cases hphase : typing.decoder.phase with
  | idle =>
      simp only [step, hphase]
      by_cases hbyte : byte = Byte.backslash
      · rw [if_pos hbyte]
        refine ⟨[], types_silent gentle .directive ?_⟩
        rw [hphase, hbyte]
        rfl
      · rw [if_neg hbyte]
        have hsame : typing.enter .idle = typing := by
          obtain ⟨⟨phase, pending, resize, dumpRequested, protocolErrors, notices⟩, modes, pty⟩ :=
            typing
          dsimp only at hphase
          subst hphase
          rfl
        have hqueues : (typing.enter .idle).Queues [byte] (typing.queue [byte]) := by
          rw [hsame]
          exact queues_queue gentle [byte]
        refine ⟨[.plain byte], Queues.types hqueues ?_ rfl (by simp) rfl⟩
        intro rest
        rw [hphase]
        exact keystrokes_plain hbyte rest
  | directive => exact types_directive gentle hphase byte
  | windowSize field => exact types_windowSize gentle hphase (unfinished field hphase) byte

end Typing

end TerminalRelay
