import TerminalRelay.Proofs.Keys.Sending

namespace TerminalRelay

namespace Typing

-- The bytes of a batch that are read: all of them, or those up to the one at which the pty failed
def consumed (typing : Typing) : Bytes → Bytes
  | [] => []
  | byte :: rest =>
    match typing.step byte with
    | ⟨next, none⟩ => byte :: next.consumed rest
    | ⟨_, some _⟩ => [byte]

theorem consumed_prefix (typing : Typing) (input : Bytes) : typing.consumed input <+: input := by
  induction input generalizing typing with
  | nil => exact List.prefix_rfl
  | cons byte rest ih =>
      rw [consumed]
      generalize typing.step byte = outcome
      obtain ⟨reached, error⟩ := outcome
      cases error with
      | none => exact List.cons_prefix_cons.mpr ⟨rfl, ih reached⟩
      | some error => exact List.cons_prefix_cons.mpr ⟨rfl, List.nil_prefix⟩

-- Where a batch is not read to its end, other bytes in place of those left make no difference.
theorem consumed_or_stopped (typing : Typing) (input : Bytes) :
    (typing.steps input).error = none ∧ typing.consumed input = input ∨
    (typing.steps input).error ≠ none ∧
      ∀ other, typing.steps (typing.consumed input ++ other) = typing.steps input := by
  induction input generalizing typing with
  | nil => exact .inl ⟨rfl, rfl⟩
  | cons byte rest ih =>
      rw [steps, consumed]
      cases hstep : typing.step byte with
      | mk reached error =>
          cases error with
          | none =>
              refine (ih reached).imp ?_ ?_
              · exact fun h => ⟨h.1, congrArg (byte :: ·) h.2⟩
              · refine fun h => ⟨h.1, fun other => ?_⟩
                rw [List.cons_append, steps, hstep]
                exact h.2 other
          | some error =>
              refine .inr ⟨by simp, fun other => ?_⟩
              rw [List.singleton_append, steps, hstep]

-- What is read of a batch makes the same strokes, whether or not the pty lets all of it be read.
theorem exists_strokes {typing : Typing} (unfinished : typing.decoder.phase.Partial)
    (input : Bytes) :
    ∃ strokes, typing.Understands (typing.consumed input) strokes (typing.steps input).state ∧
      typing.Sends (strokes.flatMap (Keystroke.meaning typing.modes.appCursor))
        (typing.steps input) := by
  induction input generalizing typing with
  | nil => exact ⟨[], .refl unfinished, sends_nothing typing⟩
  | cons byte rest ih =>
      obtain ⟨strokes, hunderstands, hsends⟩ := exists_strokes_step unfinished byte
      obtain ⟨later, hunderstands', hsends'⟩ := ih hunderstands.unfinished
      have hmodes := hunderstands.modes
      have hsends'' : typing.Sends _ ((typing.step byte).andThen fun next => next.steps rest) :=
        hsends.andThen fun _ => hsends'
      rw [hmodes, ← List.flatMap_append] at hsends''
      rw [steps_cons, consumed]
      generalize typing.step byte = outcome at *
      obtain ⟨reached, error⟩ := outcome
      cases error with
      | none => exact ⟨strokes ++ later, hunderstands.trans hunderstands', hsends''⟩
      | some error => exact ⟨strokes, hunderstands, hsends⟩

-- The last keys are written, or given up, without another look at what was read.
theorem Understands.flush {typing : Typing} {bytes : Bytes} {strokes : List Keystroke}
    {outcome : Outcome Typing} (h : typing.Understands bytes strokes outcome.state) :
    typing.Understands bytes strokes (outcome.andThen Typing.flush).state := by
  obtain ⟨reached, error⟩ := outcome
  obtain ⟨hunfinished, hparsed, hmodes, hresize, hdump, herrors⟩ := h
  cases error <;> exact ⟨hunfinished, hparsed, hmodes, hresize, hdump, herrors⟩

end Typing

namespace KeyDecoder

variable {decoder : KeyDecoder}

-- What a call sets out with
def begun (decoder : KeyDecoder) (modes : Modes) (pty : Writer) : Typing :=
  ⟨{ decoder with notices := #[] }, modes, pty⟩

theorem feed_eq (decoder : KeyDecoder) (modes : Modes) (pty : Writer) (input : Bytes) :
    decoder.feed modes pty input =
      ((decoder.begun modes pty).steps input).andThen Typing.flush := rfl

theorem Settled.exists_strokes (settled : decoder.Settled) (modes : Modes) (pty : Writer)
    (input : Bytes) :
    ∃ strokes, (decoder.begun modes pty).Understands ((decoder.begun modes pty).consumed input)
        strokes (decoder.feed modes pty input).state ∧
      (decoder.begun modes pty).Sends (strokes.flatMap (Keystroke.meaning modes.appCursor))
        (decoder.feed modes pty input) := by
  have hunfinished : (decoder.begun modes pty).decoder.phase.Partial := settled.unfinished
  obtain ⟨strokes, hunderstands, hsteps⟩ := Typing.exists_strokes hunfinished input
  have hsends := hsteps.andThen fun _ => Typing.sends_flush _
  rw [List.append_nil] at hsends
  exact ⟨strokes, hunderstands.flush, hsends⟩

-- What a batch completes, whether or not the pty lets all of it be read
def strokes (decoder : KeyDecoder) (modes : Modes) (pty : Writer) (input : Bytes) :
    List Keystroke :=
  let typing : Typing := { decoder := { decoder with notices := #[] }, modes, pty }
  (keystrokes (decoder.phase.leftover ++ typing.consumed input)).1

theorem Settled.understands_feed (settled : decoder.Settled) (modes : Modes) (pty : Writer)
    (input : Bytes) :
    (decoder.begun modes pty).Understands ((decoder.begun modes pty).consumed input)
      (decoder.strokes modes pty input) (decoder.feed modes pty input).state := by
  obtain ⟨strokes, hunderstands, -⟩ := settled.exists_strokes modes pty input
  have hstrokes : decoder.strokes modes pty input = strokes :=
    congrArg Prod.fst hunderstands.keystrokes_eq
  rwa [hstrokes]

-- The window is the one asked for last, and the other modes are not touched.
theorem Settled.modes_feed (settled : decoder.Settled) (modes : Modes) (pty : Writer)
    (input : Bytes) : (decoder.feed modes pty input).state.modes =
      { modes with window :=
          Keystroke.lastRequested modes.window (decoder.strokes modes pty input) } :=
  (settled.understands_feed modes pty input).modes

end KeyDecoder

end TerminalRelay
