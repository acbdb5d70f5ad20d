import TerminalRelay.Proofs.Mirror.Exact
import TerminalRelay.Proofs.Terminal.Reachable
import TerminalRelay.Proofs.Transport.RoundTrip

namespace TerminalRelay.Terminal

-- Reads the stream of one call. A success is ended by a newline, a failure is not, and there is no
-- newline elsewhere, since none can be decoded.
def readStream (outcome : Outcome Terminal) : Option (List Transport.Item) :=
  match outcome.error with
  | some _ => Transport.decode outcome.state.viewers.bytes
  | none =>
    if outcome.state.viewers.bytes.getLast? = some Byte.newline then
      Transport.decode outcome.state.viewers.bytes.dropLast
    else none

def withModes (t : Terminal) (modes : Modes) : Terminal :=
  { t with modes }

-- What calls lead to, one after the other and whether they succeed or fail: the terminal, the bytes
-- that were interpreted and the items that were shown. The modes come anew with every call.
def exchange (t : Terminal) : List (Modes × Bytes) → Option (Terminal × Bytes × List Transport.Item)
  | [] => some (t, [], [])
  | (modes, chunk) :: rest => do
    let called := t.withModes modes
    let items ← readStream (called.feed chunk)
    let (reached, bytes, more) ← (called.feed chunk).state.exchange rest
    return (reached, called.cleared.consumed chunk ++ bytes, items ++ more)

theorem Sound.readStream_feed {t : Terminal} (sound : t.Sound) (hforward : t.forward = true)
    (chunk : Bytes) : readStream (t.feed chunk) =
      some (t.reader.shown t.held.capacity (t.cleared.consumed chunk)) := by
  have hread := sound.cleared.reads_interpret chunk
  have hshown : (t.cleared.interpret chunk).state.viewers.items.toList =
      t.reader.shown t.held.capacity (t.cleared.consumed chunk) := by
    rw [hread.shown, show t.cleared.forward = true from hforward, if_pos rfl]
    rfl
  have hon : (t.cleared.interpret chunk).state.forward = true := hread.forward.trans hforward
  have hended : (t.cleared.interpret chunk).state.viewers.ended = false := hread.ended
  unfold readStream ViewerStream.bytes
  rw [feed_state]
  cases (t.feed chunk).error with
  | none => simp [hshown, hon, Transport.decode_render]
  | some error => simp [hshown, hended, Transport.decode_render]

-- The reading goes on from call to call as if there had been one.
theorem Sound.exchange {t : Terminal} (sound : t.Sound) (hforward : t.forward = true)
    (calls : List (Modes × Bytes)) : ∃ reached bytes items,
      t.exchange calls = some (reached, bytes, items) ∧
      items = t.reader.shown t.held.capacity bytes ∧
      reached.reader = t.reader.after t.held.capacity bytes := by
  induction calls generalizing t with
  | nil => exact ⟨t, [], [], rfl, rfl, rfl⟩
  | cons call rest ih =>
      obtain ⟨modes, chunk⟩ := call
      have sound' : (t.withModes modes).Sound := sound.congr rfl rfl
      have hstream : readStream ((t.withModes modes).feed chunk) = some (t.reader.shown
          t.held.capacity ((t.withModes modes).cleared.consumed chunk)) :=
        sound'.readStream_feed hforward chunk
      have hfed := sound'.feed chunk
      obtain ⟨hforward', hcapacity, hreader⟩ :
          ((t.withModes modes).feed chunk).state.forward = t.forward ∧
          ((t.withModes modes).feed chunk).state.held.capacity = t.held.capacity ∧
          ((t.withModes modes).feed chunk).state.reader =
            t.reader.after t.held.capacity ((t.withModes modes).cleared.consumed chunk) :=
        sound'.reader_feed chunk
      obtain ⟨reached, bytes, items, hrest, hitems, hreached⟩ := ih hfed (hforward'.trans hforward)
      rw [hreader, hcapacity] at hitems hreached
      refine ⟨reached, (t.withModes modes).cleared.consumed chunk ++ bytes,
        t.reader.shown t.held.capacity ((t.withModes modes).cleared.consumed chunk) ++ items,
        ?_, ?_, ?_⟩
      · simp only [Terminal.exchange, hstream, hrest]
        rfl
      · rw [hitems, Reader.shown_append]
      · rw [hreached, Reader.after_append]

def pending (t : Terminal) : Bytes :=
  t.reader.pending

variable {config : Config}

-- Every stream is well-formed, and together they mirror what was interpreted, up to what is held
-- back, however malformed the output and whatever failed on the way.
theorem exchange_mirror {t : Terminal} (h : t.Reachable config) (hphase : t.phase = .normal)
    (hforward : t.forward = true) (calls : List (Modes × Bytes)) :
    ∃ reached bytes items, t.exchange calls = some (reached, bytes, items) ∧
      ∀ shown, Mirror (max config.escapeCapacity 8) bytes shown ↔
        shown = items ++ Mirror.data reached.pending := by
  obtain ⟨reached, bytes, items, hexchange, hitems, hreached⟩ := h.sound.exchange hforward calls
  refine ⟨reached, bytes, items, hexchange, ?_⟩
  intro shown
  have hground : t.reader = .ground := h.sound.reader_ground hphase
  have hlimit : 2 ≤ max config.escapeCapacity 8 := Nat.le_trans (by decide) (Nat.le_max_right _ _)
  rw [Mirror.mirror_iff hlimit, Reader.mirrored, hitems, pending, hreached, hground,
    h.held_capacity]

-- A call that fails on its second byte, and a title that is still open when the calls end
theorem exchange_mirror_title :
    ∃ reached bytes items, (Terminal.ofConfig { lineCapacity := 1 }).exchange
        [({}, [0x61, 0x62, 0x63]), ({}, [0x1b, 0x08, 0x5d, 0x30, 0x1b])] =
          some (reached, bytes, items) ∧
      ∀ shown, Mirror 64 bytes shown ↔ shown = items ++ Mirror.data reached.pending :=
  exchange_mirror .start rfl rfl [({}, [0x61, 0x62, 0x63]), ({}, [0x1b, 0x08, 0x5d, 0x30, 0x1b])]

end TerminalRelay.Terminal
