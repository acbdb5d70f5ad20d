import TerminalRelay.Proofs.Keys.Reachable
import TerminalRelay.Proofs.Keys.Step

namespace TerminalRelay

namespace Typing

theorem steps_cons (typing : Typing) (byte : UInt8) (rest : Bytes) :
    typing.steps (byte :: rest) = (typing.step byte).andThen fun next => next.steps rest := by
  rw [steps]
  obtain ⟨next, error⟩ := typing.step byte
  cases error <;> rfl

theorem types_steps {typing : Typing} (gentle : typing.pty.Gentle)
    (unfinished : typing.decoder.phase.Partial) (input : Bytes) :
    ∃ strokes, typing.Types input strokes (typing.steps input) := by
  induction input generalizing typing with
  | nil => exact ⟨[], .refl gentle unfinished⟩
  | cons byte rest ih =>
      obtain ⟨strokes, hstep⟩ := types_step gentle unfinished byte
      obtain ⟨later, hrest⟩ := ih hstep.gentle hstep.unfinished
      rw [steps_cons]
      exact ⟨strokes ++ later, hstep.andThen hrest⟩

theorem Queues.types_nothing {typing : Typing} {outcome : Outcome Typing}
    (h : typing.Queues [] outcome) (unfinished : typing.decoder.phase.Partial) :
    typing.Types [] [] outcome := by
  obtain ⟨herror, hgentle, hwritten, hmodes, hdecoder⟩ := h
  refine ⟨herror, hgentle, ?_, ?_, hwritten, hmodes, ?_, ?_, ?_⟩
  · rwa [hdecoder]
  · intro rest
    rw [hdecoder]
    rfl
  · rw [hdecoder]
    rfl
  · rw [hdecoder]
    simp
  · rw [hdecoder]
    rfl

-- A batch ends with nothing left to be written.
theorem types_feed {typing : Typing} (gentle : typing.pty.Gentle)
    (unfinished : typing.decoder.phase.Partial) (input : Bytes) :
    (∃ strokes, typing.Types input strokes
      (typing.decoder.feed typing.modes typing.pty input)) ∧
    (typing.decoder.feed typing.modes typing.pty input).state.decoder.pending = [] := by
  let begun : Typing := { typing with decoder := { typing.decoder with notices := #[] } }
  have hgentle : begun.pty.Gentle := gentle
  have hunfinished : begun.decoder.phase.Partial := unfinished
  obtain ⟨strokes, hsteps⟩ := types_steps hgentle hunfinished input
  obtain ⟨hflush, hpending⟩ := queues_flush hsteps.gentle
  have hfeed : begun.Types (input ++ []) (strokes ++ [])
      (typing.decoder.feed typing.modes typing.pty input) :=
    hsteps.andThen (hflush.types_nothing hsteps.unfinished)
  rw [List.append_nil, List.append_nil] at hfeed
  refine ⟨⟨strokes, ?_⟩, ?_⟩
  · obtain ⟨herror, hgentle, hunfinished, hparsed, hwritten, hmodes, hresize, hdump, herrors⟩ :=
      hfeed
    exact ⟨herror, hgentle, hunfinished, hparsed, hwritten, hmodes, hresize, hdump, herrors⟩
  · have herror := hsteps.error
    have hdef : typing.decoder.feed typing.modes typing.pty input =
        (begun.steps input).andThen flush := rfl
    rw [hdef]
    generalize begun.steps input = outcome at herror hpending
    obtain ⟨next, error⟩ := outcome
    dsimp only at herror
    subst herror
    exact hpending

-- Batches one after the other, up to the first that fails
def feedAll (typing : Typing) : List Bytes → Outcome Typing
  | [] => ⟨typing, none⟩
  | input :: rest =>
    (typing.decoder.feed typing.modes typing.pty input).andThen fun next => next.feedAll rest

theorem types_feedAll {typing : Typing} (gentle : typing.pty.Gentle)
    (unfinished : typing.decoder.phase.Partial) (hpending : typing.decoder.pending = [])
    (batches : List Bytes) :
    (∃ strokes, typing.Types batches.flatten strokes (typing.feedAll batches)) ∧
    (typing.feedAll batches).state.decoder.pending = [] := by
  induction batches generalizing typing with
  | nil => exact ⟨⟨[], .refl gentle unfinished⟩, hpending⟩
  | cons input rest ih =>
      obtain ⟨⟨strokes, hfeed⟩, hflushed⟩ := types_feed gentle unfinished input
      obtain ⟨⟨later, hrest⟩, hend⟩ := ih hfeed.gentle hfeed.unfinished hflushed
      refine ⟨⟨strokes ++ later, hfeed.andThen hrest⟩, ?_⟩
      have herror := hfeed.error
      rw [feedAll]
      generalize typing.decoder.feed typing.modes typing.pty input = outcome at herror hend ⊢
      obtain ⟨next, error⟩ := outcome
      dsimp only at herror
      subst herror
      exact hend

variable {decoder : KeyDecoder}

-- What is typed comes out as its strokes mean, wherever it is cut into batches and whenever the
-- keys gathered are given up, and nothing else of the decoder depends on that either.
theorem feedAll_keystrokes (h : decoder.Reachable) (modes : Modes) {pty : Writer}
    (gentle : pty.Gentle) (batches : List Bytes) :
    let typed := keystrokes (decoder.phase.leftover ++ batches.flatten)
    let outcome := feedAll ⟨decoder, modes, pty⟩ batches
    typed.1.flatMap Keystroke.bytes ++ typed.2.leftover =
      decoder.phase.leftover ++ batches.flatten ∧
    outcome.error = none ∧
    outcome.state.pty.contents =
      pty.contents ++ typed.1.flatMap (Keystroke.meaning modes.appCursor) ∧
    outcome.state.decoder.phase = typed.2 ∧
    outcome.state.decoder.pending = [] ∧
    outcome.state.modes =
      { modes with window := Keystroke.lastRequested modes.window typed.1 } ∧
    outcome.state.decoder.resize = Keystroke.lastRequested decoder.resize typed.1 ∧
    outcome.state.decoder.dumpRequested = (decoder.dumpRequested || typed.1.contains .dump) ∧
    outcome.state.decoder.protocolErrors =
      decoder.protocolErrors + typed.1.countP Keystroke.offends := by
  intro typed outcome
  obtain ⟨hpending, hunfinished⟩ := h.settled
  let begun : Typing := ⟨decoder, modes, pty⟩
  have hgentle : begun.pty.Gentle := gentle
  obtain ⟨⟨strokes, htypes⟩, hflushed⟩ := types_feedAll hgentle hunfinished hpending batches
  -- at the end of the stream, what was begun is all that is left to read
  have htyped : typed = (strokes, outcome.state.decoder.phase) := by
    have hparsed := htypes.parsed []
    rw [List.append_nil, List.append_nil, keystrokes_leftover htypes.unfinished] at hparsed
    exact hparsed.trans (congrArg (·, outcome.state.decoder.phase) (List.append_nil strokes))
  have hbytes : typed.1.flatMap Keystroke.bytes ++ typed.2.leftover =
      decoder.phase.leftover ++ batches.flatten := keystrokes_bytes _
  have hwritten := htypes.written
  simp only [written, hflushed, hpending, begun, List.append_nil] at hwritten
  rw [htyped] at hbytes ⊢
  exact ⟨hbytes, htypes.error, hwritten, rfl, hflushed, htypes.modes, htypes.resize, htypes.dump,
    htypes.errors⟩

-- A newline cut in two and a window size begun, to a pty that first stalls and then takes one byte
theorem feedAll_keystrokes_cut :
    let outcome := feedAll ⟨{}, {}, { script := [.fail ⟨.interrupted, none⟩, .take 1] }⟩
      [[0x61, 0x62, 0x5c], [], [0x6e, 0x5c, 0x77], [0x30]]
    outcome.error = none ∧ outcome.state.pty.contents = [0x61, 0x62, 0x0a] ∧
      outcome.state.decoder.phase = .windowSize [0x30] := by
  have gentle : ({ script := [.fail ⟨.interrupted, none⟩, .take 1] } : Writer).Gentle := by
    refine ⟨rfl, ?_⟩
    simp [Answer.Gentle, FaultKind.isTransient]
  obtain ⟨-, herror, hcontents, hphase, -⟩ := feedAll_keystrokes .start {} gentle
    [[0x61, 0x62, 0x5c], [], [0x6e, 0x5c, 0x77], [0x30]]
  have hunfinished : KeyPhase.Partial (.windowSize [0x30]) := by
    intro field hfield
    cases hfield
    decide
  have hrest : keystrokes [0x5c, 0x77, 0x30] = ([], .windowSize [0x30]) :=
    keystrokes_leftover hunfinished
  have htyped : keystrokes [0x61, 0x62, 0x5c, 0x6e, 0x5c, 0x77, 0x30] =
      ([.plain 0x61, .plain 0x62, .newline], .windowSize [0x30]) := by
    rw [keystrokes_plain (by decide), keystrokes_plain (by decide)]
    refine (congrArg _ (congrArg _ (keystrokes_directive (by decide) [0x5c, 0x77, 0x30]))).trans ?_
    rw [hrest]
    decide
  refine ⟨herror, hcontents.trans ?_, hphase.trans (congrArg Prod.snd htyped)⟩
  exact congrArg (fun typed => typed.1.flatMap (Keystroke.meaning false)) htyped

end Typing

end TerminalRelay
