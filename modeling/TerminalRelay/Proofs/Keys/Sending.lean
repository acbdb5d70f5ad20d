import TerminalRelay.Proofs.Keys.Chunks
import TerminalRelay.Proofs.Writer.Faults

namespace TerminalRelay

namespace Typing

variable {typing reached : Typing} {first second : Bytes} {outcome : Outcome Typing}

-- Keys on their way to a pty that may answer anything: of those that wait and the new ones it takes
-- a beginning, and the rest goes on waiting. A failure leaves some of them out for good.
structure Sends (typing : Typing) (bytes : Bytes) (outcome : Outcome Typing) : Prop where
  spends : typing.pty.Spends .pty (outcome.map Typing.pty)
  taken : ∃ taken, outcome.state.pty.contents = typing.pty.contents ++ taken ∧
    Beginning (typing.decoder.pending ++ bytes) (taken ++ outcome.state.decoder.pending)
      outcome.error

theorem sends_nothing (typing : Typing) : typing.Sends [] ⟨typing, none⟩ := by
  refine ⟨.all 0 (Writer.spared_refl .pty typing.pty), [], ?_, ?_⟩
  · exact (List.append_nil _).symm
  · rw [List.append_nil]
    exact ⟨List.prefix_rfl, iff_of_true rfl rfl⟩

theorem sends_gather (typing : Typing) (bytes : Bytes) :
    typing.Sends bytes ⟨typing.gather bytes, none⟩ := by
  refine ⟨.all 0 (Writer.spared_refl .pty typing.pty), [], ?_, ?_⟩
  · exact (List.append_nil _).symm
  · exact ⟨List.prefix_rfl, iff_of_true rfl rfl⟩

theorem sends_flush (typing : Typing) : typing.Sends [] typing.flush := by
  obtain ⟨taken, hbeginning, hcontents⟩ :=
    Writer.begins_iff.mp (typing.pty.begins_deliver .pty typing.decoder.pending)
  refine ⟨typing.pty.spends_deliver .pty typing.decoder.pending, taken, hcontents, ?_⟩
  have hpending : typing.flush.state.decoder.pending = [] := rfl
  rw [hpending, List.append_nil, List.append_nil]
  exact hbeginning

theorem Sends.andThen {next : Typing → Outcome Typing} (h : typing.Sends first outcome)
    (hnext : outcome.error = none → outcome.state.Sends second (next outcome.state)) :
    typing.Sends (first ++ second) (outcome.andThen next) := by
  obtain ⟨hspends, taken, hcontents, hbeginning⟩ := h
  obtain ⟨reached, error⟩ := outcome
  cases error with
  | none =>
      obtain ⟨hspends', taken', hcontents', hbeginning'⟩ := hnext rfl
      cases hspends with
      | all asked hspared =>
          refine ⟨hspared.spends hspends', taken ++ taken', ?_, ?_⟩
          · exact hcontents'.trans (by rw [hcontents, List.append_assoc])
          · rw [← List.append_assoc, ← hbeginning.all.mp rfl, List.append_assoc, List.append_assoc]
            exact hbeginning'.append taken
  | some error =>
      refine ⟨?_, taken, hcontents, ?_⟩
      · cases hspends with
        | halted hhalts => exact .halted hhalts
      · rw [← List.append_assoc]
        exact hbeginning.stopped second

theorem sends_queue (typing : Typing) (bytes : Bytes) :
    typing.Sends bytes (typing.queue bytes) := by
  unfold queue
  split
  · exact sends_gather typing bytes
  · exact (sends_flush typing).andThen fun _ => sends_gather _ bytes

theorem queue_frame (typing : Typing) (bytes : Bytes) : ∃ pending pty,
    (typing.queue bytes).state =
      { typing with decoder := { typing.decoder with pending }, pty } := by
  unfold queue
  split
  · exact ⟨_, typing.pty, rfl⟩
  · have hflush : typing.flush.state = { typing with
        decoder := { typing.decoder with pending := [] }, pty := typing.flush.state.pty } := rfl
    generalize typing.flush = outcome at hflush ⊢
    obtain ⟨reached, error⟩ := outcome
    dsimp only at hflush
    cases error with
    | none => exact ⟨[] ++ bytes, reached.pty, congrArg (gather · bytes) hflush⟩
    | some error => exact ⟨[], reached.pty, hflush⟩

-- The one key, if any, that a byte completes
def send (typing : Typing) : Option Bytes → Outcome Typing
  | none => ⟨typing, none⟩
  | some key => typing.queue key

theorem sends_send (typing : Typing) (key : Option Bytes) :
    typing.Sends (key.getD []) (typing.send key) := by
  cases key with
  | none => exact sends_nothing typing
  | some key => exact sends_queue typing key

theorem send_frame (typing : Typing) (key : Option Bytes) : ∃ pending pty,
    (typing.send key).state =
      { typing with decoder := { typing.decoder with pending }, pty } := by
  cases key with
  | none => exact ⟨typing.decoder.pending, typing.pty, rfl⟩
  | some key => exact queue_frame typing key

-- A byte is understood before the pty comes into it.
theorem exists_send (decoder : KeyDecoder) (modes : Modes) (byte : UInt8) :
    ∃ (reached : KeyDecoder) (modes' : Modes) (key : Option Bytes),
      reached.pending = decoder.pending ∧
      ∀ pty, step ⟨decoder, modes, pty⟩ byte = send ⟨reached, modes', pty⟩ key := by
  let idle : Typing := enter ⟨decoder, modes, {}⟩ .idle
  cases hphase : decoder.phase with
  | idle =>
      simp only [step, hphase]
      split
      · exact ⟨{ decoder with phase := .directive }, modes, none, rfl, fun pty => rfl⟩
      · exact ⟨decoder, modes, some [byte], rfl, fun pty => rfl⟩
  | directive =>
      simp only [step, hphase]
      cases Directive.ofByte? byte with
      | none =>
          exact ⟨(idle.violation (.unknownDirective byte)).decoder, modes, none, rfl,
            fun pty => rfl⟩
      | some directive =>
          cases directive with
          | newline => exact ⟨idle.decoder, modes, some [Byte.newline], rfl, fun pty => rfl⟩
          | backslash => exact ⟨idle.decoder, modes, some [Byte.backslash], rfl, fun pty => rfl⟩
          | cursor key =>
              exact ⟨idle.decoder, modes, some (key.bytes modes.appCursor), rfl, fun pty => rfl⟩
          | dump =>
              exact ⟨{ idle.decoder with dumpRequested := true }, modes, none, rfl, fun pty => rfl⟩
          | keepAlive => exact ⟨idle.decoder, modes, none, rfl, fun pty => rfl⟩
          | windowSize =>
              exact ⟨(idle.enter (.windowSize [])).decoder, modes, none, rfl, fun pty => rfl⟩
  | windowSize field =>
      simp only [step, hphase]
      split
      · exact ⟨{ decoder with phase := .windowSize (field ++ [byte]) }, modes, none, rfl,
          fun pty => rfl⟩
      · unfold finishWindowSize
        cases WindowSize.ofField? (field ++ [byte]) with
        | some size =>
            exact ⟨(idle.resizeTo size).decoder, { modes with window := some size }, none, rfl,
              fun pty => rfl⟩
        | none =>
            exact ⟨(idle.violation (.malformedWindowSize (field ++ [byte]))).decoder, modes, none,
              rfl, fun pty => rfl⟩

theorem gentle_default : ({} : Writer).Gentle := ⟨rfl, by simp⟩

-- What is sent without an error is behind what was written before, or waits there.
theorem Sends.written (h : typing.Sends first outcome) (hnone : outcome.error = none) :
    outcome.state.written = typing.written ++ first := by
  obtain ⟨-, taken, hcontents, hbeginning⟩ := h
  have hall := hbeginning.all.mp hnone
  rw [Typing.written, Typing.written, hcontents, List.append_assoc, List.append_assoc, hall]

-- One byte: with a pty that takes everything its strokes are known, and with any other they and the
-- key they mean are the same.
theorem exists_strokes_send {decoder : KeyDecoder} (unfinished : decoder.phase.Partial)
    (modes : Modes) (byte : UInt8) :
    ∃ (reached : KeyDecoder) (modes' : Modes) (key : Option Bytes) (strokes : List Keystroke),
      reached.pending = decoder.pending ∧
      key.getD [] = strokes.flatMap (Keystroke.meaning modes.appCursor) ∧
      ∀ pty, step ⟨decoder, modes, pty⟩ byte = send ⟨reached, modes', pty⟩ key ∧
        Understands ⟨decoder, modes, pty⟩ [byte] strokes
          (step ⟨decoder, modes, pty⟩ byte).state := by
  obtain ⟨reached, modes', key, hpending, hstep⟩ := exists_send decoder modes byte
  let other : Typing := ⟨decoder, modes, {}⟩
  have hother : other.pty.Gentle := gentle_default
  obtain ⟨strokes, htypes⟩ := types_step hother unfinished byte
  rw [hstep] at htypes
  refine ⟨reached, modes', key, strokes, hpending, ?_, fun pty => ⟨hstep pty, ?_⟩⟩
  · have hwritten := (sends_send ⟨reached, modes', {}⟩ key).written htypes.error
    have hsame : Typing.written ⟨reached, modes', {}⟩ = other.written :=
      congrArg (Writer.contents {} ++ ·) hpending
    rw [htypes.written, hsame] at hwritten
    exact (List.append_cancel_left hwritten).symm
  · obtain ⟨pending, pty', hframe⟩ := send_frame ⟨reached, modes', pty⟩ key
    obtain ⟨pending', pty'', hframe'⟩ := send_frame ⟨reached, modes', {}⟩ key
    have hunderstands := htypes.understands
    rw [hframe'] at hunderstands
    rw [hstep, hframe]
    obtain ⟨hunfinished, hparsed, hmodes, hresize, hdump, herrors⟩ := hunderstands
    exact ⟨hunfinished, hparsed, hmodes, hresize, hdump, herrors⟩

theorem exists_strokes_step (unfinished : typing.decoder.phase.Partial) (byte : UInt8) :
    ∃ strokes, typing.Understands [byte] strokes (typing.step byte).state ∧
      typing.Sends (strokes.flatMap (Keystroke.meaning typing.modes.appCursor))
        (typing.step byte) := by
  obtain ⟨decoder, modes, pty⟩ := typing
  obtain ⟨reached, modes', key, strokes, hpending, hkey, hall⟩ :=
    exists_strokes_send unfinished modes byte
  obtain ⟨hstep, hunderstands⟩ := hall pty
  refine ⟨strokes, hunderstands, ?_⟩
  obtain ⟨hspends, htaken⟩ := sends_send ⟨reached, modes', pty⟩ key
  rw [hstep, ← hkey]
  refine ⟨hspends, ?_⟩
  rwa [hpending] at htaken

end Typing

end TerminalRelay
