import TerminalRelay.Proofs.Terminal.Abreast
import TerminalRelay.Proofs.Terminal.Chunks
import TerminalRelay.Replay

namespace TerminalRelay.Replay

open Terminal (withNewlines)

-- Where lines are printed, a replay is the feeding of its terminal.
theorem readAll_lines (replay : Replay) (hstyle : replay.style = .lines) (pieces : List Bytes) :
    replay.readAll pieces = (replay.session.terminal.feedAll pieces).1.map fun terminal =>
      { replay with session := { replay.session with terminal } } := by
  induction pieces generalizing replay with
  | nil => rfl
  | cons piece rest ih =>
      have hread : replay.read piece = (replay.session.terminal.feed piece).map fun terminal =>
          { replay with session := { replay.session with terminal } } := by
        simp only [read, Session.output]
        generalize replay.session.terminal.feed piece = outcome
        obtain ⟨next, error⟩ := outcome
        cases error with
        | none => simp [Outcome.andThen, Outcome.map, display, hstyle]
        | some error => rfl
      rw [readAll, hread, Terminal.feedAll]
      generalize replay.session.terminal.feed piece = outcome
      obtain ⟨next, error⟩ := outcome
      cases error with
      | none => exact ih _ hstyle
      | some error => rfl

-- The terminal that a replay of lines begins with
def terminal (lineCapacity : Nat) (stdout : Writer) : Terminal :=
  (start .lines lineCapacity stdout).session.terminal

theorem reachable_terminal (lineCapacity : Nat) (stdout : Writer) :
    (terminal lineCapacity stdout).Reachable { lineCapacity, forwardToViewers := false } :=
  .setModes {} (.reset (.setLogs (some stdout) none .start))

theorem rawLogGentle_terminal (lineCapacity : Nat) (stdout : Writer) :
    (terminal lineCapacity stdout).RawLogGentle := by
  rintro log ⟨⟩

-- The pieces are as good as one.
theorem readAll_interpret (lineCapacity : Nat) (stdout : Writer) (pieces : List Bytes) :
    let readTo := (start .lines lineCapacity stdout).readAll pieces
    let interpreted := (terminal lineCapacity stdout).interpret pieces.flatten
    readTo.error = interpreted.error ∧
    readTo.state.style = .lines ∧
    readTo.state.session.terminal.Twins interpreted.state ∧
    readTo.state.session.terminal.Sound ∧
    (readTo.error = none → readTo.state.session.terminal.RawLogGentle) := by
  intro readTo interpreted
  have hreachable := reachable_terminal lineCapacity stdout
  obtain ⟨herror, htwins, hlogged, -⟩ := (Terminal.Twins.refl _).feedAll hreachable.sound
    hreachable.sound rfl (rawLogGentle_terminal lineCapacity stdout) pieces
  have hread : readTo = _ := readAll_lines (start .lines lineCapacity stdout) rfl pieces
  rw [hread]
  refine ⟨herror, rfl, htwins, (hreachable.feedAll pieces).sound, ?_⟩
  intro hnone log hlog
  have hempty : ((terminal lineCapacity stdout).feedAll pieces).1.state.logged = none :=
    hlogged hnone
  rw [Terminal.logged, Option.map_eq_none_iff] at hempty
  exact absurd (hempty.symm.trans hlog) (by simp)

theorem printed_lines {replay : Replay} (hstyle : replay.style = .lines) :
    replay.printed = replay.session.terminal.written.getD [] := by
  rw [printed, hstyle]
  rfl

theorem written_readAll (lineCapacity : Nat) (stdout : Writer) (pieces : List Bytes)
    (h : ((start .lines lineCapacity stdout).readAll pieces).error = none) :
    ((start .lines lineCapacity stdout).readAll pieces).state.session.terminal.written =
      some (stdout.contents ++
        withNewlines ((terminal lineCapacity stdout).endedLines pieces.flatten)) := by
  obtain ⟨herror, -, htwins, -, -⟩ := readAll_interpret lineCapacity stdout pieces
  have hsound := (reachable_terminal lineCapacity stdout).sound
  refine (congrArg (Option.map Writer.contents) htwins.page.plainLog).trans ?_
  exact hsound.written_interpret (herror.symm.trans h)

-- A newline put behind the input ends the last line, but for a title that is still open.
theorem written_feed_newline {t : Terminal} (sound : t.Sound)
    (h : (t.feed [Byte.newline]).error = none) : (t.feed [Byte.newline]).state.written =
      t.written.map
        (· ++ withNewlines (if t.phase ≠ .title false then [t.line.toList] else [])) := by
  have hstep : (t.cleared.step Byte.newline).error = none := by
    rw [← Terminal.interpret_singleton]
    exact Terminal.interpret_of_feed h
  have hends : t.cleared.endsLine Byte.newline = decide (t.phase ≠ .title false) := by
    simp [Terminal.endsLine, Terminal.cleared]
  rw [sound.written_feed h, Terminal.endedLines_singleton hstep, hends]
  simp only [decide_eq_true_eq]
  rfl

theorem error_feed_newline {t : Terminal} (sound : t.Sound) (hraw : t.RawLogGentle)
    (hlog : t.PlainLogWilling) : (t.feed [Byte.newline]).error = none := by
  have hlog' : t.cleared.PlainLogWilling := hlog
  rw [(hraw.feed sound _).1, Terminal.interpret_singleton]
  exact hlog'.step_newline sound.cleared

theorem finish_of_nil {replay : Replay} (h : replay.session.terminal.line.toList = []) :
    replay.finish = ⟨replay, none⟩ :=
  if_neg fun hmore => hmore.2 ((ByteRing.isEmpty_iff _).mpr h)

theorem finish_of_ne {replay : Replay} (hstyle : replay.style = .lines)
    (h : replay.session.terminal.line.toList ≠ []) :
    replay.finish = (replay.session.output [Byte.newline]).map fun session =>
      { replay with session } :=
  if_pos ⟨hstyle, fun hempty => h ((ByteRing.isEmpty_iff _).mp hempty)⟩

-- The lines that are printed: those that newlines end, and the last one although none ends it. It
-- is lost only where the input stops inside a title, which takes the newline meant for it.
theorem run_lines (lineCapacity : Nat) (stdout : Writer) (pieces : List Bytes)
    (h : ((start .lines lineCapacity stdout).readAll pieces).error = none) :
    let begun := start .lines lineCapacity stdout
    let atEnd := (begun.readAll pieces).state.session.terminal
    let outcome := begun.run pieces
    let lines := begun.session.terminal.endedLines pieces.flatten
    let last := atEnd.line.toList
    (outcome.error = none → outcome.state.printed = stdout.contents ++
      withNewlines (lines ++ if last ≠ [] ∧ atEnd.phase ≠ .title false then [last] else [])) ∧
    (stdout.Gentle → outcome.error = none) := by
  intro begun atEnd outcome lines last
  have hreachable := reachable_terminal lineCapacity stdout
  obtain ⟨-, hstyle, htwins, hsound, hraw⟩ := readAll_interpret lineCapacity stdout pieces
  have hwritten : atEnd.written = some (stdout.contents ++ withNewlines lines) :=
    written_readAll lineCapacity stdout pieces h
  have hrun : outcome = finish (begun.readAll pieces).state := by
    have hreads : begun.readAll pieces = ⟨(begun.readAll pieces).state, none⟩ :=
      congrArg (Outcome.mk _) h
    exact congrArg (Outcome.andThen · finish) hreads
  rw [hrun]
  by_cases hlast : last = []
  · rw [finish_of_nil hlast]
    refine ⟨fun _ => ?_, fun _ => rfl⟩
    rw [if_neg (fun hmore => hmore.1 hlast), List.append_nil, printed_lines hstyle]
    exact congrArg (Option.getD · []) hwritten
  · rw [finish_of_ne hstyle hlast]
    refine ⟨fun hnone => ?_, fun hgentle => ?_⟩
    · have hfeed := written_feed_newline hsound hnone
      rw [hwritten] at hfeed
      have hlines : (if last ≠ [] ∧ atEnd.phase ≠ .title false then [last] else []) =
          if atEnd.phase ≠ .title false then [last] else [] := by
        simp only [ne_eq, hlast, not_false_eq_true, true_and]
      rw [hlines, Terminal.withNewlines_append, ← List.append_assoc]
      refine (printed_lines ?_).trans (congrArg (Option.getD · []) hfeed)
      exact hstyle
    · have hwilling : (terminal lineCapacity stdout).PlainLogWilling := by
        rintro log ⟨⟩
        exact hgentle
      exact error_feed_newline hsound (hraw h)
        ((hwilling.interpret hreachable.sound _).of_page htwins.page)

-- Two lines ended, the second of them inside a sequence, and a third that the input leaves open
theorem run_lines_unended :
    ((start .lines 8 {}).run [[0x61, 0x0a, 0x62, 0x1b], [0x5b, 0x0a, 0x63]]).state.printed =
      [0x61, 0x0a, 0x62, 0x0a, 0x63, 0x0a] := by
  have hread : ((start .lines 8 {}).readAll [[0x61, 0x0a, 0x62, 0x1b], [0x5b, 0x0a, 0x63]]).error =
    none := by decide +kernel
  obtain ⟨hprinted, herror⟩ := run_lines 8 {} [[0x61, 0x0a, 0x62, 0x1b], [0x5b, 0x0a, 0x63]] hread
  refine (hprinted (herror ⟨rfl, by simp⟩)).trans ?_
  decide +kernel

-- A title begun behind the last line and still open at the end of the input
theorem run_openTitle :
    let begun := start .lines 8 {}
    let atEnd := begun.readAll [[0x61, 0x62, 0x63, 0x1b, 0x5d, 0x30]]
    let outcome := begun.run [[0x61, 0x62, 0x63, 0x1b, 0x5d, 0x30]]
    atEnd.error = none ∧ atEnd.state.session.terminal.line.toList = [0x61, 0x62, 0x63] ∧
      outcome.error = none ∧ outcome.state.printed = [] := by
  decide +kernel

end TerminalRelay.Replay
