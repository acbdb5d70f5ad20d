import TerminalRelay.Proofs.Terminal.Run

namespace TerminalRelay.Terminal

-- What a terminal of this configuration can become: chunks are fed to it, with success or without,
-- and its settings change in between.
inductive Reachable (config : Config) : Terminal → Prop
  | start : Reachable config (.ofConfig config)
  | feed {t : Terminal} (chunk : Bytes) (h : Reachable config t) :
      Reachable config (t.feed chunk).state
  | reset {t : Terminal} (h : Reachable config t) : Reachable config t.reset
  | setLogs {t : Terminal} (plain raw : Option Writer) (h : Reachable config t) :
      Reachable config (t.setLogs plain raw)
  | setForward {t : Terminal} (on : Bool) (h : Reachable config t) :
      Reachable config (t.setForward on)
  | setModes {t : Terminal} (modes : Modes) (h : Reachable config t) :
      Reachable config { t with modes }

variable {config : Config} {t : Terminal}

theorem sound_of_straight_nil (straight : t.held.Straight) (hsize : t.held.size = 0)
    (hroom : 8 ≤ t.held.capacity) (hphase : t.phase = .normal) : t.Sound := by
  refine ⟨straight, hroom, ?_⟩
  have hnil : t.heldBytes = [] := by
    apply List.eq_nil_of_length_eq_zero
    rw [length_heldBytes straight, straight.cursor, hsize]
  simpa only [Reader.Coherent, reader, hphase] using hnil

theorem Sound.reset (sound : t.Sound) : t.reset.Sound :=
  sound_of_straight_nil (ByteRing.straight_reset _) rfl sound.roomy rfl

theorem Reachable.sound (h : t.Reachable config) : t.Sound := by
  induction h with
  | start =>
      refine sound_of_straight_nil ⟨rfl, rfl⟩ rfl ?_ rfl
      simp only [ofConfig, ByteRing.empty, ByteRing.capacity, Array.size_replicate]
      omega
  | feed chunk h ih => exact ih.feed chunk
  | reset h ih => exact ih.reset
  | setLogs plain raw h ih => exact ih.congr rfl rfl
  | setForward on h ih => exact ih.congr rfl rfl
  | setModes modes h ih => exact ih.congr rfl rfl

theorem Reachable.held_capacity (h : t.Reachable config) :
    t.held.capacity = max config.escapeCapacity 8 := by
  induction h with
  | start => simp [ofConfig, ByteRing.empty, ByteRing.capacity]
  | @feed t chunk h ih =>
      rw [feed_state]
      exact (h.sound.cleared.reads_interpret chunk).capacity.trans ih
  | reset h ih => exact ih
  | setLogs plain raw h ih => exact ih
  | setForward on h ih => exact ih
  | setModes modes h ih => exact ih

end TerminalRelay.Terminal
