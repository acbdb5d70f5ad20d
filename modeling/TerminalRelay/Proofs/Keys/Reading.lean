import TerminalRelay.Proofs.Byte
import TerminalRelay.Proofs.Keys.Grammar
import TerminalRelay.Proofs.Writer.Gentle

namespace TerminalRelay

-- The stroke that a directive makes; a window size becomes one only with its field.
def Directive.stroke : Directive → Keystroke
  | newline => .newline
  | backslash => .backslash
  | cursor key => .cursor key.final
  | dump => .dump
  | keepAlive => .keepAlive
  | windowSize => .unknown 'w'.toUInt8

theorem ofDirective_eq (byte : UInt8) :
    Keystroke.ofDirective byte =
      ((Directive.ofByte? byte).map Directive.stroke).getD (.unknown byte) := by
  revert byte
  apply Byte.forall_byte
  decide +kernel

theorem ofByte?_windowSize (byte : UInt8) :
    Directive.ofByte? byte = some .windowSize ↔ byte = 'w'.toUInt8 := by
  revert byte
  apply Byte.forall_byte
  decide +kernel

theorem requested_windowSize (field : Bytes) :
    (Keystroke.windowSize field).requested = WindowSize.ofField? field := by
  have hall : field.all Byte.isDigit =
      ((field.take 4).all Byte.isDigit && (field.drop 4).all Byte.isDigit) := by
    rw [← List.all_append, List.take_append_drop]
  simp only [Keystroke.requested, WindowSize.ofField?, dimension?, hall]
  by_cases hrows : (field.take 4).all Byte.isDigit ∧ 0 < Byte.decimal (field.take 4)
  · by_cases hcols : (field.drop 4).all Byte.isDigit ∧ 0 < Byte.decimal (field.drop 4)
    · simp [hrows, hcols]
    · rw [if_neg hcols, if_neg]
      · simp [hrows]
      · intro h
        apply hcols
        simp_all
  · rw [if_neg hrows, if_neg]
    · rfl
    · intro h
      apply hrows
      simp_all

namespace Typing

-- What has been decoded so far, whether or not the pty has it yet
def written (typing : Typing) : Bytes :=
  typing.pty.contents ++ typing.decoder.pending

-- The keys go to the pty or wait for it, and all else stays.
structure Queues (typing : Typing) (bytes : Bytes) (outcome : Outcome Typing) : Prop where
  error : outcome.error = none
  gentle : outcome.state.pty.Gentle
  written : outcome.state.written = typing.written ++ bytes
  modes : outcome.state.modes = typing.modes
  decoder : outcome.state.decoder =
    { typing.decoder with pending := outcome.state.decoder.pending }

theorem queues_flush {typing : Typing} (gentle : typing.pty.Gentle) :
    typing.Queues [] typing.flush ∧ typing.flush.state.decoder.pending = [] := by
  obtain ⟨herror, hgentle, hcontents⟩ := gentle.accepts .pty typing.decoder.pending
  refine ⟨⟨herror, hgentle, ?_, rfl, rfl⟩, rfl⟩
  simp only [written, flush, List.append_nil]
  exact hcontents

theorem queues_gather {typing : Typing} (gentle : typing.pty.Gentle) (bytes : Bytes) :
    typing.Queues bytes ⟨typing.gather bytes, none⟩ :=
  ⟨rfl, gentle, (List.append_assoc _ _ _).symm, rfl, rfl⟩

-- Where the bytes gathered are given up early, they reach the pty before the new ones.
theorem queues_queue {typing : Typing} (gentle : typing.pty.Gentle) (bytes : Bytes) :
    typing.Queues bytes (typing.queue bytes) := by
  unfold queue
  split
  · exact queues_gather gentle bytes
  · obtain ⟨⟨herror, hgentle, hwritten, hmodes, hdecoder⟩, -⟩ := queues_flush gentle
    generalize typing.flush = outcome at *
    obtain ⟨next, error⟩ := outcome
    dsimp only at *
    subst herror
    obtain ⟨herror', hgentle', hwritten', hmodes', hdecoder'⟩ := queues_gather hgentle bytes
    refine ⟨herror', hgentle', ?_, hmodes'.trans hmodes, ?_⟩
    · rw [List.append_nil] at hwritten
      exact hwritten'.trans (congrArg (· ++ bytes) hwritten)
    · exact hdecoder'.trans (by rw [hdecoder]; rfl)

-- The bytes read make just these strokes, whatever comes after them, and no stroke is done twice
-- or left out.
structure Types (typing : Typing) (bytes : Bytes) (strokes : List Keystroke)
    (outcome : Outcome Typing) : Prop where
  error : outcome.error = none
  gentle : outcome.state.pty.Gentle
  unfinished : outcome.state.decoder.phase.Partial
  parsed : ∀ rest, keystrokes (typing.decoder.phase.leftover ++ (bytes ++ rest)) =
    Keystroke.before strokes (keystrokes (outcome.state.decoder.phase.leftover ++ rest))
  written : outcome.state.written =
    typing.written ++ strokes.flatMap (Keystroke.meaning typing.modes.appCursor)
  modes : outcome.state.modes =
    { typing.modes with window := Keystroke.lastRequested typing.modes.window strokes }
  resize : outcome.state.decoder.resize = Keystroke.lastRequested typing.decoder.resize strokes
  dump : outcome.state.decoder.dumpRequested =
    (typing.decoder.dumpRequested || strokes.contains .dump)
  errors : outcome.state.decoder.protocolErrors =
    typing.decoder.protocolErrors + strokes.countP Keystroke.offends

theorem Types.refl {typing : Typing} (gentle : typing.pty.Gentle)
    (unfinished : typing.decoder.phase.Partial) : typing.Types [] [] ⟨typing, none⟩ := by
  refine ⟨rfl, gentle, unfinished, fun _ => rfl, ?_, rfl, rfl, ?_, rfl⟩
  · simp
  · simp

-- What the bytes read make of all but the keys on their way, wherever those are
structure Understands (typing : Typing) (bytes : Bytes) (strokes : List Keystroke)
    (reached : Typing) : Prop where
  unfinished : reached.decoder.phase.Partial
  parsed : ∀ rest, keystrokes (typing.decoder.phase.leftover ++ (bytes ++ rest)) =
    Keystroke.before strokes (keystrokes (reached.decoder.phase.leftover ++ rest))
  modes : reached.modes =
    { typing.modes with window := Keystroke.lastRequested typing.modes.window strokes }
  resize : reached.decoder.resize = Keystroke.lastRequested typing.decoder.resize strokes
  dump : reached.decoder.dumpRequested =
    (typing.decoder.dumpRequested || strokes.contains .dump)
  errors : reached.decoder.protocolErrors =
    typing.decoder.protocolErrors + strokes.countP Keystroke.offends

theorem Types.understands {typing : Typing} {bytes : Bytes} {strokes : List Keystroke}
    {outcome : Outcome Typing} (h : typing.Types bytes strokes outcome) :
    typing.Understands bytes strokes outcome.state :=
  ⟨h.unfinished, h.parsed, h.modes, h.resize, h.dump, h.errors⟩

theorem Understands.refl {typing : Typing} (unfinished : typing.decoder.phase.Partial) :
    typing.Understands [] [] typing := by
  refine ⟨unfinished, fun _ => rfl, rfl, rfl, ?_, rfl⟩
  simp

theorem Understands.trans {typing reached last : Typing} {first second : Bytes}
    {strokes later : List Keystroke} (h : typing.Understands first strokes reached)
    (h' : reached.Understands second later last) :
    typing.Understands (first ++ second) (strokes ++ later) last where
  unfinished := h'.unfinished
  parsed rest := by
    rw [List.append_assoc, h.parsed, h'.parsed, ← Keystroke.before_append]
  modes := by rw [h'.modes, h.modes, Keystroke.lastRequested_append]
  resize := by rw [h'.resize, h.resize, Keystroke.lastRequested_append]
  dump := by
    rw [h'.dump, h.dump]
    simp only [List.contains_eq_any_beq, List.any_append, Bool.or_assoc]
  errors := by rw [h'.errors, h.errors, List.countP_append, Nat.add_assoc]

theorem Understands.keystrokes_eq {typing reached : Typing} {bytes : Bytes}
    {strokes : List Keystroke} (h : typing.Understands bytes strokes reached) :
    keystrokes (typing.decoder.phase.leftover ++ bytes) = (strokes, reached.decoder.phase) := by
  have hparsed := h.parsed []
  rwa [List.append_nil, List.append_nil, keystrokes_leftover h.unfinished, Keystroke.before,
    List.append_nil] at hparsed

theorem Types.andThen {typing : Typing} {first second : Bytes} {strokes later : List Keystroke}
    {outcome : Outcome Typing} {next : Typing → Outcome Typing}
    (h : typing.Types first strokes outcome)
    (hnext : outcome.state.Types second later (next outcome.state)) :
    typing.Types (first ++ second) (strokes ++ later) (outcome.andThen next) := by
  obtain ⟨hunfinished, hparsed, hmodes, hresize, hdump, herrors⟩ :=
    h.understands.trans hnext.understands
  have herror := h.error
  have hwritten := h.written
  have hbetween := h.modes
  obtain ⟨reached, error⟩ := outcome
  dsimp only at herror
  subst herror
  refine ⟨hnext.error, hnext.gentle, hunfinished, hparsed, ?_, hmodes, hresize, hdump, herrors⟩
  rw [Outcome.andThen, hnext.written, hwritten, hbetween, List.flatMap_append, List.append_assoc]

-- A stroke that only sends bytes
theorem Queues.types {typing : Typing} {byte : UInt8} {stroke : Keystroke}
    {outcome : Outcome Typing}
    (h : (typing.enter .idle).Queues (stroke.meaning typing.modes.appCursor) outcome)
    (hparsed : ∀ rest, keystrokes (typing.decoder.phase.leftover ++ ([byte] ++ rest)) =
      Keystroke.before [stroke] (keystrokes rest))
    (hrequested : stroke.requested = none) (hdump : stroke ≠ .dump)
    (hoffends : stroke.offends = false) : typing.Types [byte] [stroke] outcome := by
  obtain ⟨herror, hgentle, hwritten, hmodes, hdecoder⟩ := h
  refine ⟨herror, hgentle, ?_, ?_, ?_, ?_, ?_, ?_, ?_⟩
  · rw [hdecoder]
    exact .idle
  · rw [hdecoder]
    exact hparsed
  · rw [hwritten, List.flatMap_singleton]
    rfl
  · simp [hmodes, enter, Keystroke.lastRequested, hrequested]
  · rw [hdecoder]
    simp [enter, Keystroke.lastRequested, hrequested]
  · rw [hdecoder]
    have hne : ¬ Keystroke.dump = stroke := fun heq => hdump heq.symm
    simp [enter, hne]
  · rw [hdecoder]
    simp [enter, hoffends]

end Typing

end TerminalRelay
