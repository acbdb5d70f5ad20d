import TerminalRelay.Proofs.Keys.Grammar

namespace TerminalRelay

namespace KeyDecoder

-- What a decoder can become, to whatever pty and under whatever modes it works
inductive Reachable : KeyDecoder → Prop
  | start : Reachable {}
  | feed {decoder : KeyDecoder} (modes : Modes) (pty : Writer) (input : Bytes)
      (h : Reachable decoder) : Reachable (decoder.feed modes pty input).state.decoder
  | takeResize {decoder : KeyDecoder} (h : Reachable decoder) : Reachable decoder.takeResize.2
  | takeDumpRequest {decoder : KeyDecoder} (h : Reachable decoder) :
      Reachable decoder.takeDumpRequest.2

-- What every call leaves behind, also one that the pty makes fail
structure Settled (decoder : KeyDecoder) : Prop where
  pending : decoder.pending = []
  unfinished : decoder.phase.Partial

end KeyDecoder

namespace Typing

-- A failure comes from a flush, and that gives up what was gathered.
theorem queue_phase (typing : Typing) (bytes : Bytes) :
    (typing.queue bytes).state.decoder.phase = typing.decoder.phase ∧
    ((typing.queue bytes).error = none ∨ (typing.queue bytes).state.decoder.pending = []) := by
  unfold queue
  split
  · exact ⟨rfl, .inl rfl⟩
  · obtain ⟨hphase, hpending⟩ : typing.flush.state.decoder.phase = typing.decoder.phase ∧
        typing.flush.state.decoder.pending = [] := ⟨rfl, rfl⟩
    generalize typing.flush = outcome at *
    obtain ⟨next, error⟩ := outcome
    cases error with
    | none => exact ⟨hphase, .inl rfl⟩
    | some error => exact ⟨hphase, .inr hpending⟩

theorem obey_phase (typing : Typing) (hphase : typing.decoder.phase = .idle)
    (directive : Directive) :
    (typing.obey directive).state.decoder.phase.Partial ∧
    ((typing.obey directive).error = none ∨
      (typing.obey directive).state.decoder.pending = []) := by
  have hqueue : ∀ bytes, (typing.queue bytes).state.decoder.phase.Partial ∧
      ((typing.queue bytes).error = none ∨ (typing.queue bytes).state.decoder.pending = []) := by
    intro bytes
    obtain ⟨hsame, hend⟩ := queue_phase typing bytes
    rw [hsame, hphase]
    exact ⟨.idle, hend⟩
  have hidle : typing.decoder.phase.Partial := by
    rw [hphase]
    exact .idle
  cases directive with
  | newline => exact hqueue _
  | backslash => exact hqueue _
  | cursor key => exact hqueue _
  | dump => exact ⟨hidle, .inl rfl⟩
  | keepAlive => exact ⟨hidle, .inl rfl⟩
  | windowSize =>
      refine ⟨?_, .inl rfl⟩
      intro field hfield
      cases hfield
      decide

theorem step_phase (typing : Typing) (byte : UInt8) :
    (typing.step byte).state.decoder.phase.Partial ∧
    ((typing.step byte).error = none ∨ (typing.step byte).state.decoder.pending = []) := by
  cases hphase : typing.decoder.phase with
  | idle =>
      simp only [step, hphase]
      split
      · exact ⟨.directive, .inl rfl⟩
      · obtain ⟨hsame, hend⟩ := queue_phase typing [byte]
        rw [hsame, hphase]
        exact ⟨.idle, hend⟩
  | directive =>
      simp only [step, hphase]
      split
      · exact obey_phase _ rfl _
      · exact ⟨.idle, .inl rfl⟩
  | windowSize field =>
      simp only [step, hphase]
      split
      · refine ⟨?_, .inl rfl⟩
        intro field' hfield'
        cases hfield'
        assumption
      · refine ⟨?_, .inl rfl⟩
        unfold finishWindowSize
        split <;> exact .idle

theorem steps_phase {typing : Typing} (unfinished : typing.decoder.phase.Partial) (input : Bytes) :
    (typing.steps input).state.decoder.phase.Partial ∧
    ((typing.steps input).error = none ∨ (typing.steps input).state.decoder.pending = []) := by
  induction input generalizing typing with
  | nil => exact ⟨unfinished, .inl rfl⟩
  | cons byte rest ih =>
      obtain ⟨hphase, hend⟩ := step_phase typing byte
      rw [steps]
      generalize typing.step byte = outcome at hphase hend
      obtain ⟨next, error⟩ := outcome
      cases error with
      | none => exact ih hphase
      | some error => exact ⟨hphase, hend⟩

end Typing

namespace KeyDecoder

theorem Settled.feed {decoder : KeyDecoder} (settled : decoder.Settled) (modes : Modes)
    (pty : Writer) (input : Bytes) : (decoder.feed modes pty input).state.decoder.Settled := by
  let begun : Typing := ⟨{ decoder with notices := #[] }, modes, pty⟩
  have hbegun : begun.decoder.phase.Partial := settled.unfinished
  obtain ⟨hphase, hend⟩ := Typing.steps_phase hbegun input
  have hdef : decoder.feed modes pty input = (begun.steps input).andThen Typing.flush := rfl
  rw [hdef]
  generalize begun.steps input = outcome at hphase hend
  obtain ⟨next, error⟩ := outcome
  cases error with
  | none => exact ⟨rfl, hphase⟩
  | some error => exact ⟨hend.resolve_left (by simp), hphase⟩

theorem Reachable.settled {decoder : KeyDecoder} (h : decoder.Reachable) : decoder.Settled := by
  induction h with
  | start => exact ⟨rfl, .idle⟩
  | feed modes pty input h ih => exact ih.feed modes pty input
  | takeResize h ih => exact ⟨ih.pending, ih.unfinished⟩
  | takeDumpRequest h ih => exact ⟨ih.pending, ih.unfinished⟩

end KeyDecoder

end TerminalRelay
