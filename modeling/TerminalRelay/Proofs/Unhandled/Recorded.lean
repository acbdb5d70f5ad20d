import TerminalRelay.Proofs.Byte
import TerminalRelay.Proofs.Terminal.Reachable
import TerminalRelay.Proofs.Unhandled.Exact
import TerminalRelay.Proofs.Unhandled.Printable
import Mathlib.Data.List.DropRight

namespace TerminalRelay

namespace History

variable {history : History} {capacity : Nat} {raws : List Bytes}

-- The last of these sequences, as many as there is room for; the others are counted.
structure Holds (history : History) (capacity : Nat) (raws : List Bytes) : Prop where
  room : history.capacity = capacity
  entries : history.entries = (raws.rtake capacity).map Unhandled.mk
  dropped : history.dropped = raws.length - capacity

theorem holds_nil (hroom : history.capacity = capacity) (hentries : history.entries = [])
    (hdropped : history.dropped = 0) : history.Holds capacity [] := by
  refine ⟨hroom, ?_, ?_⟩
  · rw [hentries, List.rtake_nil, List.map_nil]
  · rw [hdropped, List.length_nil, Nat.zero_sub]

theorem Holds.length_entries (h : history.Holds capacity raws) :
    history.entries.length = min raws.length capacity := by
  rw [h.entries, List.length_map, List.rtake, List.length_drop]
  omega

theorem Holds.push (h : history.Holds capacity raws) (raw : Bytes) :
    (history.push raw).Holds capacity (raws ++ [raw]) := by
  have hlength := h.length_entries
  obtain ⟨rfl, hentries, hdropped⟩ := h
  have hnew : (raws ++ [raw]).length = raws.length + 1 := List.length_append
  unfold History.push
  split
  · -- there is no room at all
    rename_i hzero
    refine ⟨rfl, ?_, ?_⟩
    · dsimp only
      rw [hentries, hzero, List.rtake_zero, List.rtake_zero]
    · dsimp only
      rw [hdropped, hnew]
      omega
  split
  · -- all sequences so far have found room
    rename_i hzero hroom
    refine ⟨rfl, ?_, ?_⟩
    · dsimp only
      rw [hentries, List.rtake, List.rtake, Nat.sub_eq_zero_of_le (by omega),
        Nat.sub_eq_zero_of_le (by omega), List.drop_zero, List.drop_zero, List.map_append]
      rfl
    · dsimp only
      rw [hdropped, hnew]
      omega
  · -- the oldest entry goes
    rename_i hzero hfull
    refine ⟨rfl, ?_, ?_⟩
    · have hsplit : raws.length + 1 - history.capacity = raws.length - history.capacity + 1 := by
        omega
      dsimp only
      rw [hentries, List.rtake, List.rtake, hnew, hsplit,
        List.drop_append_of_le_length (by omega), List.map_append, ← List.map_drop, List.drop_drop]
      rfl
    · dsimp only
      rw [hdropped, hnew]
      omega

theorem Holds.pushAll (h : history.Holds capacity raws) (more : List Bytes) :
    (more.foldl History.push history).Holds capacity (raws ++ more) := by
  induction more generalizing history raws with
  | nil => rwa [List.append_nil]
  | cons raw more ih =>
      rw [List.append_cons]
      exact ih (h.push raw)

end History

namespace Terminal

variable {config : Config} {t : Terminal} {bytes : Bytes}

-- Since it was new or last reset, a terminal has read these bytes, in calls that may have failed.
inductive HasRead (config : Config) : Terminal → Bytes → Prop
  | start : HasRead config (.ofConfig config) []
  | feed {t : Terminal} {bytes : Bytes} (chunk : Bytes) (h : HasRead config t bytes) :
      HasRead config (t.feed chunk).state (bytes ++ t.cleared.consumed chunk)
  | reset {t : Terminal} {bytes : Bytes} (h : HasRead config t bytes) : HasRead config t.reset []
  | setLogs {t : Terminal} {bytes : Bytes} (plain raw : Option Writer)
      (h : HasRead config t bytes) : HasRead config (t.setLogs plain raw) bytes
  | setForward {t : Terminal} {bytes : Bytes} (on : Bool) (h : HasRead config t bytes) :
      HasRead config (t.setForward on) bytes
  | setModes {t : Terminal} {bytes : Bytes} (modes : Modes) (h : HasRead config t bytes) :
      HasRead config { t with modes } bytes

theorem HasRead.reachable (h : HasRead config t bytes) : t.Reachable config := by
  induction h with
  | start => exact .start
  | feed chunk h ih => exact .feed chunk ih
  | reset h ih => exact .reset ih
  | setLogs plain raw h ih => exact .setLogs plain raw ih
  | setForward on h ih => exact .setForward on ih
  | setModes modes h ih => exact .setModes modes ih

theorem HasRead.holds (h : HasRead config t bytes) :
    t.reader = Reader.ground.after (max config.escapeCapacity 8) bytes ∧
    t.unhandled.Holds config.debugCapacity
      (Reader.ground.recorded (max config.escapeCapacity 8) bytes) := by
  induction h with
  | start =>
      have hbegun : (ofConfig config).Reachable config := .start
      exact ⟨hbegun.sound.reader_ground rfl, History.holds_nil rfl rfl rfl⟩
  | @feed t bytes chunk h ih =>
      obtain ⟨hreader, hholds⟩ := ih
      have sound := h.reachable.sound
      have hcapacity := h.reachable.held_capacity
      obtain ⟨-, -, hafter⟩ := sound.reader_feed chunk
      have hrecorded : (t.cleared.interpret chunk).state.unhandled =
          (t.reader.recorded t.held.capacity (t.cleared.consumed chunk)).foldl History.push
            t.unhandled := (sound.cleared.reads_interpret chunk).unhandled
      have hmore := hholds.pushAll (t.reader.recorded t.held.capacity (t.cleared.consumed chunk))
      rw [hcapacity, hreader, ← Reader.after_append] at hafter
      rw [← hrecorded, hcapacity, hreader, ← Reader.recorded_append] at hmore
      refine ⟨hafter, ?_⟩
      rw [feed_state]
      exact hmore
  | reset h ih =>
      exact ⟨h.reachable.sound.reset.reader_ground rfl, History.holds_nil ih.2.room rfl rfl⟩
  | setLogs plain raw h ih => exact ih
  | setForward on h ih => exact ih
  | setModes modes h ih => exact ih

-- Of what a stream leaves, the last sequences are on record as far as there is room, and the number
-- of the others is. Each is told as its bytes read, and its digits give the bytes back.
theorem unhandled_exact (h : HasRead config t bytes) : ∃ raws : List Bytes,
    (∀ other, LeavesUnhandled (max config.escapeCapacity 8) bytes other ↔ other = raws) ∧
    t.unhandled.entries = (raws.rtake config.debugCapacity).map Unhandled.mk ∧
    t.unhandled.entries.length = min raws.length config.debugCapacity ∧
    t.unhandled.dropped = raws.length - t.unhandled.entries.length ∧
    ∀ entry ∈ t.unhandled.entries,
      (∀ text, Unhandled.ToldAs entry.raw text ↔ entry.printable.toList = text) ∧
      Bytes.ofHex? entry.hex = some entry.raw := by
  obtain ⟨-, holds⟩ := h.holds
  have hlimit : 2 ≤ max config.escapeCapacity 8 := by omega
  refine ⟨_, fun other => leavesUnhandled_iff hlimit bytes other, holds.entries,
    holds.length_entries, ?_, fun entry _ => ⟨entry.toldAs_iff, Bytes.ofHex?_hex entry.raw⟩⟩
  rw [holds.dropped, holds.length_entries]
  omega

-- An unknown sequence in two parts with a backspace in it; a colour, a sequence that another one
-- breaks off, and one that is too long, which takes the place of the first
theorem unhandled_exact_evicted :
    let config : Config := { lineCapacity := 8, escapeCapacity := 8, debugCapacity := 1 }
    let first : Bytes := [0x61, 0x1b, 0x5b, 0x08, 0x35]
    let second : Bytes := [0x7a, 0x1b, 0x5b, 0x33, 0x31, 0x6d, 0x1b, 0x5b, 0x31, 0x1b, 0x5b, 0x4b,
      0x1b, 0x5b, 0x31, 0x32, 0x33, 0x34, 0x35, 0x36, 0x37, 0x48]
    let t := (((ofConfig config).feed first).state.feed second).state
    let long : Bytes := [0x1b, 0x5b, 0x31, 0x32, 0x33, 0x34, 0x35, 0x36]
    HasRead config t (first ++ second) ∧
    LeavesUnhandled 8 (first ++ second) [[0x1b, 0x5b, 0x35, 0x7a], long] ∧
    t.unhandled.entries = [⟨long⟩] ∧ t.unhandled.dropped = 1 ∧
    Unhandled.ToldAs long "\\e[123456".toList ∧
    Bytes.ofHex? (Unhandled.mk long).hex = some long := by
  intro config first second t long
  have hconsumed : ([] ++ (ofConfig config).cleared.consumed first) ++
      ((ofConfig config).feed first).state.cleared.consumed second = first ++ second := by
    decide +kernel
  have hread : HasRead config t (first ++ second) :=
    hconsumed ▸ .feed second (.feed first .start)
  have hleaves : LeavesUnhandled 8 (first ++ second) [[0x1b, 0x5b, 0x35, 0x7a], long] :=
    (leavesUnhandled_iff (by decide) _ _).mpr (by decide +kernel)
  obtain ⟨raws, hraws, hentries, hlength, hdropped, htold⟩ := unhandled_exact hread
  obtain rfl := (hraws _).mp hleaves
  obtain ⟨htext, hhex⟩ := htold ⟨long⟩ (hentries ▸ List.mem_singleton_self _)
  rw [hlength] at hdropped
  exact ⟨hread, hleaves, hentries, hdropped, (htext _).mpr (by decide +kernel), hhex⟩

end Terminal

end TerminalRelay
