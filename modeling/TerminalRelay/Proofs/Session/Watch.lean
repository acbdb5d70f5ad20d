import TerminalRelay.Proofs.Mirror.Calls
import TerminalRelay.Proofs.Mirror.Screen
import TerminalRelay.Proofs.Session.Reachable

namespace TerminalRelay.Session

open Transport (dataOf markersOf)
open Mirror (Piece)

-- A session that has just begun: a new one, or one that was sent back to its beginning at any
-- point of its history. Whether viewers are shown anything may still be settled.
inductive Begun (config : Config) : Session → Prop
  | start : Begun config (.ofConfig config)
  | reset {session : Session} (h : session.Reachable config) : Begun config session.reset
  | attachLogs {session : Session} (plain raw : Option Writer) (h : session.Reachable config) :
      Begun config (session.attachLogs plain raw)
  | setForward {session : Session} (on : Bool) (h : Begun config session) :
      Begun config (session.setForward on)

variable {config : Config} {session : Session}

theorem Begun.reachable (h : session.Begun config) : session.Reachable config := by
  induction h with
  | start => exact .start
  | reset h => exact .perform .reset h
  | attachLogs plain raw h => exact .perform (.attachLogs plain raw) h
  | setForward on h ih => exact .perform (.setForward on) ih

theorem Begun.phase (h : session.Begun config) : session.terminal.phase = .normal := by
  induction h with
  | start => rfl
  | reset h => rfl
  | attachLogs plain raw h => rfl
  | setForward on h ih => exact ih

theorem Begun.altScreen (h : session.Begun config) :
    session.terminal.modes.altScreen = false := by
  induction h with
  | start => rfl
  | reset h => rfl
  | attachLogs plain raw h => rfl
  | setForward on h ih => exact ih

-- What calls lead to, one after the other and whether they succeed or fail: the session, the bytes
-- that were interpreted and the items that viewers were shown
def watch (session : Session) : List Bytes → Option (Session × Bytes × List Transport.Item)
  | [] => some (session, [], [])
  | chunk :: rest => do
    let items ← Terminal.readStream (session.terminal.feed chunk)
    let (reached, bytes, more) ← (session.output chunk).state.watch rest
    return (reached, session.terminal.cleared.consumed chunk ++ bytes, items ++ more)

-- The reading and the screen go on from call to call as if there had been one.
theorem watch_eq (sound : session.terminal.Sound) (hforward : session.terminal.forward = true)
    (chunks : List Bytes) : ∃ reached bytes items,
      session.watch chunks = some (reached, bytes, items) ∧
      items = session.terminal.reader.shown session.terminal.held.capacity bytes ∧
      reached.terminal.reader =
        session.terminal.reader.after session.terminal.held.capacity bytes ∧
      reached.terminal.modes.altScreen =
        Marker.followed session.terminal.modes.altScreen (markersOf items) := by
  induction chunks generalizing session with
  | nil => exact ⟨session, [], [], rfl, rfl, rfl, rfl⟩
  | cons chunk rest ih =>
      have hstream := sound.readStream_feed hforward chunk
      have hscreen := sound.modes_feed chunk
      have hsound := sound.feed chunk
      obtain ⟨hforward', hcapacity, hreader⟩ := sound.reader_feed chunk
      generalize hread : session.terminal.cleared.consumed chunk = read at hstream hscreen hreader
      obtain ⟨reached, bytes, items, hrest, hitems, hreached, hlast⟩ :
          ∃ reached bytes items, (session.output chunk).state.watch rest =
              some (reached, bytes, items) ∧
            items = (session.terminal.feed chunk).state.reader.shown
              (session.terminal.feed chunk).state.held.capacity bytes ∧
            reached.terminal.reader = (session.terminal.feed chunk).state.reader.after
              (session.terminal.feed chunk).state.held.capacity bytes ∧
            reached.terminal.modes.altScreen = Marker.followed
              (session.terminal.feed chunk).state.modes.altScreen (markersOf items) :=
        ih hsound (hforward'.trans hforward)
      rw [hreader, hcapacity] at hitems hreached
      rw [hscreen, Reader.altScreen_modesAfter] at hlast
      refine ⟨reached, read ++ bytes, session.terminal.reader.shown
        session.terminal.held.capacity read ++ items, ?_, ?_, ?_, ?_⟩
      · simp only [watch, hstream, hrest, hread]
        rfl
      · rw [hitems, Reader.shown_append]
      · rw [hreached, Reader.after_append]
      · rw [hlast, Transport.markersOf_append, Marker.followed_append]

-- Viewers who follow the markers are on the screen that the session is on. Markers come from
-- switches of screens and from nothing else, in their order, and nothing of a switch is left as
-- data.
theorem watch_screen (h : session.Begun config) (hforward : session.terminal.forward = true)
    (chunks : List Bytes) : ∃ reached bytes items,
      session.watch chunks = some (reached, bytes, items) ∧
      (∃ pieces, Pieces (max config.escapeCapacity 8) bytes pieces) ∧
      (∀ pieces, Pieces (max config.escapeCapacity 8) bytes pieces →
        markersOf items = pieces.flatMap Piece.markers ∧
        dataOf items ++ reached.terminal.pending = pieces.flatMap Piece.bytes) ∧
      reached.terminal.modes.altScreen = Marker.followed false (markersOf items) := by
  have hreachable := h.reachable.terminal
  have hground := hreachable.sound.reader_ground h.phase
  have hlimit : 2 ≤ max config.escapeCapacity 8 := by omega
  obtain ⟨reached, bytes, items, hwatch, hitems, hreached, hscreen⟩ :=
    watch_eq hreachable.sound hforward chunks
  rw [hreachable.held_capacity, hground] at hitems hreached
  rw [h.altScreen] at hscreen
  refine ⟨reached, bytes, items, hwatch, Pieces.exists_pieces hlimit bytes, ?_, hscreen⟩
  intro pieces hpieces
  have hshown : pieces.flatMap Piece.items =
      items ++ Mirror.data reached.terminal.pending := by
    rw [(Mirror.mirror_iff hlimit bytes _).mp hpieces.mirror, Reader.mirrored, hitems,
      Terminal.pending, hreached]
  constructor
  · have hmarkers := congrArg markersOf hshown
    rw [Pieces.markers_flatMap, Transport.markersOf_append, Mirror.data,
      Transport.markersOf_data, List.append_nil] at hmarkers
    exact hmarkers.symm
  · have hdata := congrArg dataOf hshown
    rw [Pieces.bytes_flatMap, Transport.dataOf_append, Mirror.data,
      Transport.dataOf_data] at hdata
    exact hdata.symm

-- A switch cut in two, with a backspace inside and a zero in front of its number; a child that
-- prints the letters of a marker; and a call that fails with its second byte
theorem watch_screen_cut :
    let session := (Session.ofConfig { lineCapacity := 4 }).reset
    let chunks : List Bytes := [[0x1b, 0x5b, 0x3f],
      [0x08, 0x30, 0x31, 0x30, 0x34, 0x37, 0x68, 0x5c, 0x73, 0x31], [0x61, 0x62, 0x63]]
    (∃ reached bytes items, session.watch chunks = some (reached, bytes, items) ∧
      (∃ pieces, Pieces 64 bytes pieces) ∧
      (∀ pieces, Pieces 64 bytes pieces →
        markersOf items = pieces.flatMap Piece.markers ∧
        dataOf items ++ reached.terminal.pending = pieces.flatMap Piece.bytes) ∧
      reached.terminal.modes.altScreen = Marker.followed false (markersOf items)) ∧
    (session.watch chunks).map (fun run => (markersOf run.2.2, dataOf run.2.2)) =
      some ([.alternate], [0x08, 0x5c, 0x73, 0x31, 0x61, 0x62]) := by
  intro session chunks
  have begun : session.Begun { lineCapacity := 4 } := .reset .start
  exact ⟨watch_screen begun rfl chunks, by decide +kernel⟩

end TerminalRelay.Session
