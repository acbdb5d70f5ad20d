import TerminalRelay.Proofs.Terminal.Reachable

namespace TerminalRelay

-- Bytes that an ESC begins, and that are the beginning of one sequence
structure Sequence.Begun (held : Bytes) : Prop where
  head : held.head? = some Byte.escape
  escape_notMem_tail : Byte.escape ∉ held.tail
  scan : Sequence.scan held = .pending
  form : Sequence.Open held

theorem Sequence.Open.begun {held : Bytes} (hopen : Sequence.Open held) :
    Sequence.Begun held := by
  have hlow {byte : UInt8} (h : 0x20 ≤ byte) : byte ≠ Byte.escape := by
    rintro rfl
    exact absurd h (by decide)
  refine ⟨?_, ?_, Sequence.scan_open hopen, hopen⟩
  · cases hopen <;> rfl
  · cases hopen with
    | escape => simp
    | control body hbody =>
        intro hmem
        rcases List.mem_cons.mp hmem with heq | hmem
        · exact absurd heq (by decide)
        · exact hlow (hbody _ hmem).1 rfl
    | intermediates bytes hne hbytes =>
        intro hmem
        exact hlow (hbytes _ hmem).1 rfl

-- What a store of this capacity holds in each phase
inductive Phase.Keeps (capacity : Nat) : Phase → Bytes → Prop
  | normal : Keeps capacity .normal []
  | title (sawEscape : Bool) : Keeps capacity (.title sawEscape) []
  | collecting {held : Bytes} (hbegun : Sequence.Begun held) : Keeps capacity .collecting held
  | overlong {held : Bytes} (hbegun : Sequence.Begun held) (hfull : held.length = capacity) :
      Keeps capacity .overlong held

namespace Terminal

variable {config : Config} {t : Terminal}

-- What a terminal is between two bytes: before, between and after calls, and within a call after
-- the bytes it has read so far, the last of which may be the one that could not be dealt with.
inductive BetweenBytes (config : Config) : Terminal → Prop
  | call {t : Terminal} (h : t.Reachable config) : BetweenBytes config t
  | byte {t : Terminal} (h : t.Reachable config) (sofar : Bytes) :
      BetweenBytes config (t.cleared.interpret sofar).state

-- The first slice of the store is all it holds and its cursor is at the end, so that whoever looks
-- at that slice sees the whole sequence.
structure SeesWhole (t : Terminal) : Prop where
  slices : t.held.slices = (t.held.toList, [])
  cursor : t.held.cursor = t.held.toList.length
  forwarded : t.forwardHeld = t.emit (t.held.toList.map .data)
  recorded : t.recordHeld = { t with unhandled := t.unhandled.push t.held.toList }
  scanned : ∀ (byte : UInt8) (room : t.held.cursor < t.held.capacity), byte ≠ Byte.escape →
    t.collect byte = ({ t with held := t.held.put byte room } : Terminal).complete byte
      (Sequence.scan (t.held.toList ++ [byte]))

theorem seesWhole_of_straight (straight : t.held.Straight) : t.SeesWhole := by
  have hheld : t.heldBytes = t.held.toList := straight.slices
  have hrest : t.held.slices.2 = [] := by
    have hall : t.held.slices.1 ++ t.held.slices.2 = t.held.toList := rfl
    rw [straight.slices] at hall
    exact List.append_right_eq_self.mp hall
  refine ⟨Prod.ext straight.slices hrest, ?_, ?_, ?_, ?_⟩
  · rw [ByteRing.length_toList, straight.cursor]
  · rw [forwardHeld, hheld]
  · rw [recordHeld, hheld]
  · intro byte room hescape
    have hput : (t.held.put byte room).slices.1 = t.held.toList ++ [byte] := by
      rw [(straight.put byte room).slices, straight.toList_put]
    rw [collect, if_neg hescape, dif_pos room, ← hput]
    rfl

theorem Sound.keeps_held (sound : t.Sound) : t.phase.Keeps t.held.capacity t.held.toList := by
  have hheld : t.heldBytes = t.held.toList := sound.straight.slices
  have hcoherent := sound.coherent
  simp only [Reader.Coherent, reader, hheld] at hcoherent
  cases hphase : t.phase with
  | normal =>
      simp only [hphase] at hcoherent
      exact hcoherent ▸ .normal
  | collecting =>
      simp only [hphase] at hcoherent
      exact .collecting hcoherent.1.begun
  | title sawEscape =>
      simp only [hphase] at hcoherent
      exact hcoherent ▸ .title sawEscape
  | overlong =>
      simp only [hphase] at hcoherent
      exact .overlong hcoherent.1.begun hcoherent.2

theorem BetweenBytes.sound (h : t.BetweenBytes config) : t.Sound := by
  cases h with
  | call h => exact h.sound
  | byte h sofar => exact (h.sound.cleared.reads_interpret sofar).sound

-- Phase and store agree at all times, and the store is never seen in part: not as it stands, not
-- where a byte begins a sequence anew, and not with the next byte put into it.
theorem betweenBytes_held (h : t.BetweenBytes config) :
    t.SeesWhole ∧ t.phase.Keeps t.held.capacity t.held.toList ∧
    ∀ u, u = t ∨ u = t.beginSequence → u.SeesWhole ∧
      ∀ (byte : UInt8) (room : u.held.cursor < u.held.capacity),
        ({ u with held := u.held.put byte room } : Terminal).SeesWhole := by
  have sound := h.sound
  have hstraight (u : Terminal) (hu : u = t ∨ u = t.beginSequence) : u.held.Straight := by
    rcases hu with rfl | rfl
    · exact sound.straight
    · exact sound.straight.clear.put Byte.escape t.held.capacity_pos
  refine ⟨seesWhole_of_straight sound.straight, sound.keeps_held, fun u hu => ?_⟩
  exact ⟨seesWhole_of_straight (hstraight u hu), fun byte room =>
    seesWhole_of_straight ((hstraight u hu).put byte room)⟩

-- A line of one byte fails in the middle of a call; the next call is in a sequence that has just
-- outgrown its store.
theorem betweenBytes_held_outgrown :
    let failed := (ofConfig { lineCapacity := 1, escapeCapacity := 8 }).feed [0x61, 0x62, 0x63]
    let t := (failed.state.cleared.interpret
      [0x1b, 0x5b, 0x31, 0x3b, 0x32, 0x3b, 0x33, 0x3b, 0x34]).state
    t.BetweenBytes { lineCapacity := 1, escapeCapacity := 8 } ∧
      failed.error = some (.lineTooLong 1) ∧ t.phase = .overlong ∧
      t.phase.Keeps t.held.capacity t.held.toList := by
  intro failed t
  have hfailed : failed.state.Reachable { lineCapacity := 1, escapeCapacity := 8 } :=
    .feed [0x61, 0x62, 0x63] .start
  have h : t.BetweenBytes { lineCapacity := 1, escapeCapacity := 8 } :=
    .byte hfailed [0x1b, 0x5b, 0x31, 0x3b, 0x32, 0x3b, 0x33, 0x3b, 0x34]
  exact ⟨h, by decide +kernel, by decide +kernel, (betweenBytes_held h).2.1⟩

end Terminal

end TerminalRelay
