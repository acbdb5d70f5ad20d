import TerminalRelay.Proofs.Keys.Consumed
import Mathlib.Data.List.Forall2

namespace TerminalRelay

namespace KeyDecoder

-- The keys that a batch completes, from the phase and the cursor keys' mode it finds
def decoded (decoder : KeyDecoder) (modes : Modes) (input : Bytes) : Bytes :=
  (keystrokes (decoder.phase.leftover ++ input)).1.flatMap (Keystroke.meaning modes.appCursor)

-- The decoder and its modes are as these strokes, and the one begun, leave them.
structure HasRead (decoder : KeyDecoder) (modes : Modes) (typed : List Keystroke × KeyPhase)
    (reached : Typing) : Prop where
  phase : reached.decoder.phase = typed.2
  modes : reached.modes =
    { modes with window := Keystroke.lastRequested modes.window typed.1 }
  resize : reached.decoder.resize = Keystroke.lastRequested decoder.resize typed.1
  dump : reached.decoder.dumpRequested = (decoder.dumpRequested || typed.1.contains .dump)
  errors : reached.decoder.protocolErrors =
    decoder.protocolErrors + typed.1.countP Keystroke.offends

-- What a call comes to, whatever the pty answers. The pty takes a beginning of this call's own
-- keys, and all of them exactly if the call succeeds. Otherwise the pty's first fatal answer is
-- told, no offer was made and no byte was read after it. No key stays behind for a later call.
structure WritesOwn (decoder : KeyDecoder) (modes : Modes) (pty : Writer) (input : Bytes) :
    Prop where
  taken : ∃ taken, (decoder.feed modes pty input).state.pty.contents = pty.contents ++ taken ∧
    Beginning (decoder.decoded modes input) taken (decoder.feed modes pty input).error
  halts : ∀ error, (decoder.feed modes pty input).error = some error →
    pty.Halts .pty error (decoder.feed modes pty input).state.pty
  pending : (decoder.feed modes pty input).state.decoder.pending = []
  read : ∃ read unread, input = read ++ unread ∧
    decoder.HasRead modes (keystrokes (decoder.phase.leftover ++ read))
      (decoder.feed modes pty input).state ∧
    ((decoder.feed modes pty input).error = none → unread = []) ∧
    (unread ≠ [] → ∀ other,
      decoder.feed modes pty (read ++ other) = decoder.feed modes pty input)

end KeyDecoder

namespace Typing

variable {typing reached : Typing} {bytes rest : Bytes} {strokes : List Keystroke}

theorem Understands.hasRead (h : typing.Understands bytes strokes reached) :
    typing.decoder.HasRead typing.modes
      (keystrokes (typing.decoder.phase.leftover ++ bytes)) reached := by
  rw [h.keystrokes_eq]
  exact ⟨rfl, h.modes, h.resize, h.dump, h.errors⟩

-- What follows only adds keys behind these.
theorem Understands.decoded (h : typing.Understands bytes strokes reached) (rest : Bytes) :
    typing.decoder.decoded typing.modes (bytes ++ rest) =
      strokes.flatMap (Keystroke.meaning typing.modes.appCursor) ++
        (keystrokes (reached.decoder.phase.leftover ++ rest)).1.flatMap
          (Keystroke.meaning typing.modes.appCursor) := by
  rw [KeyDecoder.decoded, h.parsed, Keystroke.before, List.flatMap_append]

end Typing

namespace KeyDecoder

variable {decoder : KeyDecoder}

-- A batch is read to its end, or the call fails, and does so with other bytes behind as well.
theorem unread_or_stopped (decoder : KeyDecoder) (modes : Modes) (pty : Writer) (input : Bytes) :
    ∃ unread, input = (decoder.begun modes pty).consumed input ++ unread ∧
      ((decoder.feed modes pty input).error = none → unread = []) ∧
      (unread ≠ [] → ∀ other,
        decoder.feed modes pty ((decoder.begun modes pty).consumed input ++ other) =
          decoder.feed modes pty input) := by
  obtain ⟨unread, hinput⟩ := Typing.consumed_prefix (decoder.begun modes pty) input
  refine ⟨unread, hinput.symm, ?_⟩
  rcases (decoder.begun modes pty).consumed_or_stopped input with ⟨-, hall⟩ | ⟨hsome, hstopped⟩
  · have hnil : unread = [] := by
      rw [hall] at hinput
      exact List.append_cancel_left (hinput.trans (List.append_nil input).symm)
    exact ⟨fun _ => hnil, fun hne => absurd hnil hne⟩
  · obtain ⟨error, herror⟩ := Option.ne_none_iff_exists'.mp hsome
    refine ⟨?_, fun _ other => ?_⟩
    · intro hnone
      rw [feed_eq, Outcome.andThen_of_some herror] at hnone
      exact absurd hnone hsome
    · rw [feed_eq, feed_eq, hstopped]

theorem Settled.writesOwn (settled : decoder.Settled) (modes : Modes) (pty : Writer)
    (input : Bytes) : decoder.WritesOwn modes pty input := by
  obtain ⟨strokes, hunderstands, hspends, taken, hcontents, hbeginning⟩ :=
    settled.exists_strokes modes pty input
  obtain ⟨unread, hinput, hend, hother⟩ := decoder.unread_or_stopped modes pty input
  have hpending := (settled.feed modes pty input).pending
  have hbegun : (decoder.begun modes pty).decoder.pending = [] := settled.pending
  rw [hpending, hbegun, List.append_nil, List.nil_append] at hbeginning
  have hread : decoder.HasRead modes
      (keystrokes (decoder.phase.leftover ++ (decoder.begun modes pty).consumed input))
      (decoder.feed modes pty input).state := by
    obtain ⟨hphase, hmodes, hresize, hdump, herrors⟩ := hunderstands.hasRead
    exact ⟨hphase, hmodes, hresize, hdump, herrors⟩
  refine ⟨⟨taken, hcontents, ?_⟩, fun error herror => hspends.halts herror, hpending,
    _, unread, hinput, hread, hend, hother⟩
  have hdecoded := hunderstands.decoded unread
  rw [← hinput] at hdecoded
  have hsame : decoder.decoded modes input =
    (decoder.begun modes pty).decoder.decoded (decoder.begun modes pty).modes input := rfl
  rw [hsame, hdecoded]
  generalize decoder.feed modes pty input = outcome at hunderstands hbeginning hend ⊢
  obtain ⟨reached, error⟩ := outcome
  cases error with
  | none =>
      rw [hend rfl, List.append_nil, keystrokes_leftover hunderstands.unfinished]
      rwa [List.flatMap_nil, List.append_nil]
  | some error => exact hbeginning.stopped _

-- What is done with a decoder in the course of time
inductive Call where
  | feed (modes : Modes) (input : Bytes)
  | takeResize
  | takeDumpRequest

-- The keys that a call decodes
def Call.decoded (decoder : KeyDecoder) : Call → Bytes
  | feed modes input => decoder.decoded modes input
  | takeResize | takeDumpRequest => []

def perform (decoder : KeyDecoder) (pty : Writer) : Call → KeyDecoder × Writer
  | .feed modes input =>
    let reached := (decoder.feed modes pty input).state
    (reached.decoder, reached.pty)
  | .takeResize => (decoder.takeResize.2, pty)
  | .takeDumpRequest => (decoder.takeDumpRequest.2, pty)

-- Calls one after the other, whatever became of those before
def performAll (decoder : KeyDecoder) (pty : Writer) : List Call → KeyDecoder × Writer
  | [] => (decoder, pty)
  | call :: rest =>
    let (reached, pty) := decoder.perform pty call
    reached.performAll pty rest

-- The keys that each of the calls decodes
def decodedAll (decoder : KeyDecoder) (pty : Writer) : List Call → List Bytes
  | [] => []
  | call :: rest =>
    let (reached, pty) := decoder.perform pty call
    call.decoded decoder :: reached.decodedAll pty rest

theorem Reachable.perform (h : decoder.Reachable) (pty : Writer) (call : Call) :
    (decoder.perform pty call).1.Reachable := by
  cases call with
  | feed modes input => exact .feed modes pty input h
  | takeResize => exact .takeResize h
  | takeDumpRequest => exact .takeDumpRequest h

theorem Reachable.performAll (h : decoder.Reachable) (pty : Writer) (calls : List Call) :
    (decoder.performAll pty calls).1.Reachable := by
  induction calls generalizing decoder pty with
  | nil => exact h
  | cons call rest ih => exact ih (h.perform pty call) _

theorem Settled.contents_perform (settled : decoder.Settled) (pty : Writer) (call : Call) :
    ∃ taken, taken <+: call.decoded decoder ∧
      (decoder.perform pty call).2.contents = pty.contents ++ taken := by
  cases call with
  | feed modes input =>
      obtain ⟨taken, hcontents, hbeginning⟩ := (settled.writesOwn modes pty input).taken
      exact ⟨taken, hbeginning.isPrefix, hcontents⟩
  | takeResize => exact ⟨[], List.nil_prefix, (List.append_nil _).symm⟩
  | takeDumpRequest => exact ⟨[], List.nil_prefix, (List.append_nil _).symm⟩

theorem Reachable.contents_performAll (h : decoder.Reachable) (pty : Writer)
    (calls : List Call) : ∃ taken, List.Forall₂ (· <+: ·) taken (decoder.decodedAll pty calls) ∧
      (decoder.performAll pty calls).2.contents = pty.contents ++ taken.flatten := by
  induction calls generalizing decoder pty with
  | nil => exact ⟨[], .nil, (List.append_nil _).symm⟩
  | cons call rest ih =>
      obtain ⟨first, hprefix, hcontents⟩ := h.settled.contents_perform pty call
      obtain ⟨taken, hall, hcontents'⟩ := ih (h.perform pty call) (decoder.perform pty call).2
      refine ⟨first :: taken, .cons hprefix hall, hcontents'.trans ?_⟩
      rw [hcontents, List.append_assoc]
      rfl

-- Keys that the pty did not take are lost: each call of a run writes of its own keys alone, however
-- the pty answered in this call and in those before it.
theorem performAll_writesOwn (h : decoder.Reachable) (pty : Writer) (calls : List Call) :
    (∀ before modes input after, calls = before ++ .feed modes input :: after →
      let (reached, pty') := decoder.performAll pty before
      reached.WritesOwn modes pty' input) ∧
    (∃ taken, List.Forall₂ (· <+: ·) taken (decoder.decodedAll pty calls) ∧
      (decoder.performAll pty calls).2.contents = pty.contents ++ taken.flatten) ∧
    (decoder.performAll pty calls).1.pending = [] := by
  refine ⟨?_, h.contents_performAll pty calls, (h.performAll pty calls).settled.pending⟩
  rintro before modes input after -
  exact (h.performAll pty before).settled.writesOwn modes _ input

-- The first batch breaks off behind one of its two keys, and the next one begins afresh.
theorem performAll_writesOwn_broken :
    let pty : Writer := { script := [.take 1, .fail ⟨.brokenPipe, none⟩] }
    let reached := ({} : KeyDecoder).performAll pty [.feed {} [0x61, 0x62], .takeResize]
    ({} : KeyDecoder).WritesOwn {} pty [0x61, 0x62] ∧ reached.1.WritesOwn {} reached.2 [0x63] ∧
    reached.2.contents = [0x61] := by
  intro pty reached
  obtain ⟨hcalls, -, -⟩ := performAll_writesOwn .start pty
    [.feed {} [0x61, 0x62], .takeResize, .feed {} [0x63]]
  exact ⟨hcalls [] _ _ _ rfl, hcalls [.feed {} [0x61, 0x62], .takeResize] _ _ [] rfl, by decide⟩

end KeyDecoder

end TerminalRelay
