import TerminalRelay.Proofs.Replay.Lines
import TerminalRelay.Proofs.Session.Recording

namespace TerminalRelay

-- A destination that will take all it is offered, and has taken nothing yet
structure Writer.Blank (writer : Writer) : Prop extends writer.Gentle where
  contents : writer.contents = []

namespace Session

-- The terminal of a session at the end of what its logs have recorded
def recorded (session : Session) (plain raw : Writer) (operations : List Operation) : Terminal :=
  ((session.attachLogs (some plain) (some raw)).performAll operations).1.terminal

theorem follows_attachLogs {session : Session} {plain : Option Writer} {raw : Writer}
    (sound : (session.attachLogs plain (some raw)).terminal.Sound) (hraw : raw.Gentle) :
    Follows (session.attachLogs plain (some raw)).terminal []
      (session.attachLogs plain (some raw)) := by
  refine ⟨rfl, .refl _, sound, KeyDecoder.Reachable.start.settled, ?_, ?_⟩
  · rintro log ⟨⟩
    exact hraw
  · exact congrArg some (List.append_nil _).symm

-- What was recorded, read without a break by the terminal that the recording began with, leads to
-- where the session came.
theorem recorded_interpret {session : Session} {plain raw : Writer}
    (sound : (session.attachLogs (some plain) (some raw)).terminal.Sound) (hraw : raw.Blank)
    {operations : List Operation}
    (hkeeps : (session.attachLogs (some plain) (some raw)).KeepsAll operations) {bytes : Bytes}
    (hbytes : (session.recorded plain raw operations).logged = some bytes) :
    let base := (session.attachLogs (some plain) (some raw)).terminal
    (base.interpret bytes).error = none ∧
    (session.recorded plain raw operations).Twins (base.interpret bytes).state := by
  intro base
  obtain ⟨herror, htwins, -, -, -, hlogged⟩ :=
    (follows_attachLogs sound hraw.toGentle).performAll sound hkeeps
  -- the log was empty, so that it now holds just what was read
  have hempty : base.logged = some [] := congrArg some hraw.contents
  rw [hempty] at hlogged
  have hread : [] ++ operations.flatMap Operation.chunk = bytes :=
    Option.some.inj (hlogged.symm.trans hbytes)
  rw [hread] at herror htwins
  exact ⟨herror, htwins⟩

end Session

namespace Replay

-- A session that has just been given its logs and a replay of as much room set out together: none
-- of them has a line, a sequence or a mode yet.
theorem abreast_start {config : Config}
    (hescape : config.escapeCapacity = ({} : Config).escapeCapacity) {session : Session}
    (h : session.Reachable config) {plain raw stdout : Writer} (hplain : plain.Gentle)
    (hstdout : stdout.Gentle) :
    (session.attachLogs (some plain) (some raw)).terminal.Abreast
      (terminal config.lineCapacity stdout) := by
  have hlive : (session.attachLogs (some plain) (some raw)).terminal.Reachable config :=
    (h.perform (.attachLogs (some plain) (some raw))).terminal
  have hreplay := reachable_terminal config.lineCapacity stdout
  have hcapacity : (session.attachLogs (some plain) (some raw)).terminal.held.capacity =
      (terminal config.lineCapacity stdout).held.capacity := by
    rw [hlive.held_capacity, hreplay.held_capacity, hescape]
  have hground := (hlive.sound.reader_ground rfl).trans (hreplay.sound.reader_ground rfl).symm
  refine ⟨hcapacity, hground, ⟨rfl, ?_, rfl, rfl, ?_⟩, ?_, ?_⟩
  · rw [hlive.line_capacity, hreplay.line_capacity]
  · exact (ByteRing.toList_reset _).trans (ByteRing.toList_reset _).symm
  · rintro log ⟨⟩
    exact hplain
  · rintro log ⟨⟩
    exact hstdout

-- The raw log tells all that the plain log was written from: what is replayed from it, in whatever
-- pieces, prints the plain log again and comes to where the session stands.
theorem readAll_recorded {config : Config}
    (hescape : config.escapeCapacity = ({} : Config).escapeCapacity) {session : Session}
    (h : session.Reachable config) {plain raw stdout : Writer} (hplain : plain.Blank)
    (hraw : raw.Blank) (hstdout : stdout.Blank) {operations : List Operation}
    (hkeeps : (session.attachLogs (some plain) (some raw)).KeepsAll operations)
    {pieces : List Bytes}
    (hpieces : (session.recorded plain raw operations).logged = some pieces.flatten) :
    let live := session.recorded plain raw operations
    let readTo := (start .lines config.lineCapacity stdout).readAll pieces
    let replayed := readTo.state.session.terminal
    readTo.error = none ∧
    live.written = some readTo.state.printed ∧
    replayed.line.toList = live.line.toList ∧
    replayed.line.cursor = live.line.cursor ∧
    replayed.phase = live.phase ∧
    replayed.heldBytes = live.heldBytes ∧
    replayed.modes = live.modes := by
  intro live readTo replayed
  have hlive : (session.attachLogs (some plain) (some raw)).terminal.Reachable config :=
    (h.perform (.attachLogs (some plain) (some raw))).terminal
  have hreplay := reachable_terminal config.lineCapacity stdout
  obtain ⟨herror, htwins⟩ := Session.recorded_interpret hlive.sound hraw hkeeps hpieces
  obtain ⟨hsame, habreast, hlines⟩ :=
    (abreast_start hescape h hplain.toGentle hstdout.toGentle).interpret hlive.sound hreplay.sound
      pieces.flatten
  obtain ⟨herror', hstyle, htwins', -, -⟩ :=
    readAll_interpret config.lineCapacity stdout pieces
  have hnone : readTo.error = none := herror'.trans (hsame.symm.trans herror)
  have hwritten : live.written = some (Terminal.withNewlines
      ((terminal config.lineCapacity stdout).endedLines pieces.flatten)) := by
    have hlog := hlive.sound.written_interpret herror
    have hplain' : (session.attachLogs (some plain) (some raw)).terminal.written = some [] :=
      congrArg some hplain.contents
    rw [hlines, hplain'] at hlog
    exact (congrArg (Option.map Writer.contents) htwins.page.plainLog).trans hlog
  have hprinted : readTo.state.printed = Terminal.withNewlines
      ((terminal config.lineCapacity stdout).endedLines pieces.flatten) := by
    rw [printed_lines hstyle, written_readAll config.lineCapacity stdout pieces hnone,
      hstdout.contents]
    rfl
  have hcourse := (htwins'.page.sameLine.trans habreast.line.symm).trans htwins.page.sameLine.symm
  have hreader := (htwins'.reader.trans habreast.reader.symm).trans htwins.reader.symm
  refine ⟨hnone, hwritten.trans (congrArg some hprinted.symm), hcourse.line.content,
    hcourse.line.cursor, congrArg Reader.phase hreader, congrArg Reader.held hreader,
    hcourse.modes⟩

-- Keys typed between two halves of a title, the second of which is replayed in two parts
theorem readAll_recorded_typed :
    let operations : List Operation := [.output [0x61, 0x1b, 0x5d, 0x74],
      .keystrokes [0x78, 0x5c, 0x6e] {}, .setForward false, .output [0x07, 0x62, 0x0a, 0x63, 0x08]]
    let live := (Session.ofConfig { lineCapacity := 8 }).recorded {} {} operations
    let readTo := (start .lines 8 {}).readAll
      [[0x61, 0x1b, 0x5d], [0x74, 0x07, 0x62, 0x0a, 0x63], [0x08]]
    live.written = some readTo.state.printed ∧ readTo.state.printed = [0x61, 0x62, 0x0a] := by
  have hescape : ({ lineCapacity := 8 } : Config).escapeCapacity = ({} : Config).escapeCapacity :=
    rfl
  have hblank : Writer.Blank {} := ⟨⟨rfl, by simp⟩, rfl⟩
  intro operations live readTo
  have hkeeps : ((Session.ofConfig { lineCapacity := 8 }).attachLogs (some {}) (some {})).KeepsAll
      operations := by
    refine ⟨?_, ?_, trivial, ?_, trivial⟩ <;> simp only [Session.Keeps] <;> decide +kernel
  have hpieces : live.logged =
      some [[0x61, 0x1b, 0x5d], [0x74, 0x07, 0x62, 0x0a, 0x63], [0x08]].flatten := by
    decide +kernel
  have hrecorded := readAll_recorded hescape .start hblank hblank hblank hkeeps hpieces
  exact ⟨hrecorded.2.1, by decide +kernel⟩

end Replay

end TerminalRelay
