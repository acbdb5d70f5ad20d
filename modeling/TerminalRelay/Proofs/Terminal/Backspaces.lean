import TerminalRelay.Proofs.Sequence.Table
import TerminalRelay.Proofs.Terminal.Titles
import TerminalRelay.Proofs.Writer.Partial

namespace TerminalRelay.Terminal

open Mirror (Backspaces)
open Sequence (backspaces kept)

variable {config : Config} {t : Terminal} {left middle right raw : Bytes} {byte final : UInt8}

-- Either input leads from here to the same terminal, but for cells that hold nothing.
structure Interchangeable (t : Terminal) (left right : Bytes) : Prop where
  error : (t.interpret left).error = (t.interpret right).error
  state : (t.interpret left).state.Alike (t.interpret right).state

theorem Interchangeable.refl (t : Terminal) (bytes : Bytes) : t.Interchangeable bytes bytes :=
  ⟨rfl, .refl _⟩

theorem Interchangeable.trans (h : t.Interchangeable left middle)
    (h' : t.Interchangeable middle right) : t.Interchangeable left right :=
  ⟨h.error.trans h'.error, h.state.trans h'.state⟩

theorem Interchangeable.cons (h : (t.step byte).state.Interchangeable left right) :
    t.Interchangeable (byte :: left) (byte :: right) := by
  cases hstep : (t.step byte).error with
  | none =>
      have hread (rest : Bytes) :
          t.interpret (byte :: rest) = (t.step byte).state.interpret rest := by
        rw [interpret_cons, Outcome.andThen_of_none hstep]
      exact ⟨by rw [hread, hread, h.error], by rw [hread, hread]; exact h.state⟩
  | some error =>
      have hread (rest : Bytes) : t.interpret (byte :: rest) = t.step byte := by
        rw [interpret_cons, Outcome.andThen_of_some hstep]
      exact ⟨by rw [hread, hread], by rw [hread, hread]; exact .refl _⟩

theorem Interchangeable.append (sound : t.Sound) (h : t.Interchangeable left right)
    (rest : Bytes) : t.Interchangeable (left ++ rest) (right ++ rest) := by
  have hsound := (sound.reads_interpret left).sound
  have hsound' := (sound.reads_interpret right).sound
  cases hleft : (t.interpret left).error with
  | none =>
      have hright := h.error.symm.trans hleft
      obtain ⟨herror, hstate⟩ := h.state.interpret hsound hsound' rest
      constructor
      all_goals
        rw [interpret_append, interpret_append, Outcome.andThen_of_none hleft,
          Outcome.andThen_of_none hright]
        assumption
  | some error =>
      have hright := h.error.symm.trans hleft
      constructor
      all_goals
        rw [interpret_append, interpret_append, Outcome.andThen_of_some hleft,
          Outcome.andThen_of_some hright]
      · exact h.error
      · exact h.state

theorem step_backspace (hphase : t.phase.inTitle = false) :
    t.step Byte.backspace = ⟨(t.forwardByte Byte.backspace).stepBack, none⟩ := by
  have hreturn : Byte.backspace ≠ Byte.carriageReturn := by decide
  simp [step, turns_succ, turn, finish, Turn.done, hreturn, hphase]

-- A byte that begins a sequence, or leaves one open: it is put aside and nothing else happens.
structure PutsAside (t : Terminal) (byte : UInt8) : Prop where
  phase : t.phase.inTitle = false
  read : ∃ held, t.reader.read t.held.capacity byte = (⟨.collecting, held⟩, {})

theorem Sound.step_putsAside (sound : t.Sound) (h : t.PutsAside byte) :
    ∃ held phase, t.step byte = ⟨{ t with held, phase }, none⟩ ∧
      held.capacity = t.held.capacity ∧
      ({ t with held, phase } : Terminal).reader =
        (t.reader.read t.held.capacity byte).1 := by
  obtain ⟨-, next, hread⟩ := h
  rw [hread, ← interpret_singleton]
  exact sound.interpret_silent (.cons hread (.nil _))

-- A backspace goes on with a sequence, whichever it is, and pays no heed to it.
theorem stepBack_reading (t : Terminal) (byte : UInt8) (held : ByteRing) (phase : Phase) :
    (({ t with held, phase } : Terminal).forwardByte byte).stepBack =
      { (t.forwardByte byte).stepBack with held, phase } := by
  simp only [forwardByte, emit]
  split <;> rfl

theorem reader_stepBack (t : Terminal) (byte : UInt8) :
    (t.forwardByte byte).stepBack.reader = t.reader ∧
      (t.forwardByte byte).stepBack.held.capacity = t.held.capacity := by
  simp only [forwardByte, emit]
  split <;> exact ⟨rfl, rfl⟩

theorem PutsAside.step_backspace (h : t.PutsAside byte) :
    (t.step Byte.backspace).state.PutsAside byte := by
  obtain ⟨hphase, held, hread⟩ := h
  obtain ⟨hreader, hcapacity⟩ := reader_stepBack t Byte.backspace
  rw [Terminal.step_backspace hphase]
  refine ⟨?_, held, ?_⟩
  · exact (congrArg (fun reader => reader.phase.inTitle) hreader).trans hphase
  · rw [hreader, hcapacity, hread]

-- What a backspace does, it does as well before such a byte as behind it.
theorem Sound.swap_backspace (sound : t.Sound) (h : t.PutsAside byte) :
    t.Interchangeable [byte, Byte.backspace] [Byte.backspace, byte] := by
  let back := (t.forwardByte Byte.backspace).stepBack
  have hback : t.step Byte.backspace = ⟨back, none⟩ := Terminal.step_backspace h.phase
  have hsound : back.Sound := by
    have := sound.step Byte.backspace
    rwa [hback] at this
  have haside : back.PutsAside byte := by
    have := h.step_backspace
    rwa [hback] at this
  obtain ⟨hreader, hcapacity⟩ := reader_stepBack t Byte.backspace
  obtain ⟨held, phase, hfirst, hkept, hheld⟩ := sound.step_putsAside h
  obtain ⟨held', phase', hlast, hkept', hheld'⟩ := hsound.step_putsAside haside
  have hinner : ({ t with held, phase } : Terminal).phase.inTitle = false := by
    obtain ⟨-, next, hread⟩ := h
    rw [hread] at hheld
    exact congrArg (fun reader => reader.phase.inTitle) hheld
  have hleft : t.interpret [byte, Byte.backspace] = ⟨{ back with held, phase }, none⟩ := by
    rw [interpret_cons, hfirst, Outcome.andThen_of_none rfl, interpret_singleton,
      Terminal.step_backspace hinner, stepBack_reading]
  have hright : t.interpret [Byte.backspace, byte] =
      ⟨{ back with held := held', phase := phase' }, none⟩ := by
    rw [interpret_cons, hback, Outcome.andThen_of_none rfl, interpret_singleton, hlast]
  have hsame : back.reader.read back.held.capacity byte = t.reader.read t.held.capacity byte := by
    rw [hreader, hcapacity]
  rw [hsame] at hheld'
  constructor
  · rw [hleft, hright]
  · rw [hleft, hright]
    have hcapacities := hkept.trans (hkept'.trans hcapacity).symm
    exact ⟨⟨hcapacities, hheld.trans hheld'.symm, rfl, rfl, .refl _, rfl⟩, rfl, rfl, rfl⟩

theorem backspaces_backspaces (raw : Bytes) : Backspaces (backspaces raw) :=
  fun byte hmem => by simpa using List.of_mem_filter hmem

theorem Sound.swap_backspaces (sound : t.Sound) (h : t.PutsAside byte) {inner : Bytes}
    (hinner : Backspaces inner) : t.Interchangeable (byte :: inner) (inner ++ [byte]) := by
  induction inner generalizing t with
  | nil => exact .refl t _
  | cons first inner ih =>
      obtain rfl : first = Byte.backspace := hinner first (by simp)
      have hrest : Backspaces inner := fun b hb => hinner b (List.mem_cons_of_mem _ hb)
      have hfirst := (sound.swap_backspace h).append sound inner
      exact hfirst.trans (.cons (ih (sound.step _) h.step_backspace hrest))

-- The backspaces move to the front one behind the other, past the bytes of the sequence before
-- them, so the induction is on the bytes as they are mixed.
theorem Sound.backspaces_ahead (sound : t.Sound) {held : Bytes} (hne : held ≠ [])
    (hreader : t.reader = ⟨.collecting, held⟩) (hopen : Sequence.Open (held ++ kept raw))
    (hfits : (held ++ kept raw).length ≤ t.held.capacity) :
    t.Interchangeable raw (backspaces raw ++ kept raw) := by
  induction raw generalizing t held with
  | nil => exact .refl t []
  | cons byte raw ih =>
      have hnext := (sound.settles byte).reader
      have hcapacity := (sound.settles byte).capacity
      rw [hreader] at hnext
      by_cases hbyte : byte = Byte.backspace
      · subst hbyte
        have hkept : kept (Byte.backspace :: raw) = kept raw := by simp [kept]
        have hahead : backspaces (Byte.backspace :: raw) = Byte.backspace :: backspaces raw := by
          simp [backspaces]
        rw [Reader.read_backspace (by simp)] at hnext
        rw [hkept] at hopen hfits ⊢
        rw [hahead, List.cons_append]
        exact .cons (ih (sound.step _) hne hnext hopen (hcapacity ▸ hfits))
      · have hkept : kept (byte :: raw) = byte :: kept raw := by simp [kept, hbyte]
        have hahead : backspaces (byte :: raw) = backspaces raw := by simp [backspaces, hbyte]
        rw [hkept, List.append_cons] at hopen hfits
        have hroom : held.length < t.held.capacity := by
          simp only [List.length_append, List.length_singleton] at hfits
          omega
        have hread := Reader.read_open (hopen.of_append (by simp)) hne hroom
        rw [hread] at hnext
        have haside : t.PutsAside byte :=
          ⟨congrArg (fun reader => reader.phase.inTitle) hreader, _, hreader ▸ hread⟩
        have hrest := ih (sound.step byte) (by simp) hnext hopen (hcapacity ▸ hfits)
        rw [hkept, hahead, List.append_cons]
        exact (Interchangeable.cons hrest).trans
          ((sound.swap_backspaces haside (backspaces_backspaces raw)).append sound (kept raw))

-- The same from the ESC on, where no sequence was open before
theorem Sound.backspaces_before (sound : t.Sound) (hphase : t.phase = .normal)
    (hopen : Sequence.Open (Byte.escape :: kept raw))
    (hfits : (Byte.escape :: kept raw).length ≤ t.held.capacity) :
    t.Interchangeable (Byte.escape :: raw) (backspaces raw ++ Byte.escape :: kept raw) := by
  have hground := sound.reader_ground hphase
  have hread : t.reader.read t.held.capacity Byte.escape = (.opened, {}) := by
    rw [hground]
    rfl
  have hopened : (t.step Byte.escape).state.reader = .opened := by
    rw [(sound.settles Byte.escape).reader, hread]
  have hcapacity := (sound.settles Byte.escape).capacity
  have haside : t.PutsAside Byte.escape := ⟨by rw [hphase]; rfl, _, hread⟩
  have hrest :=
    (sound.step Byte.escape).backspaces_ahead (by simp) hopened hopen (hcapacity ▸ hfits)
  rw [List.append_cons]
  exact (Interchangeable.cons hrest).trans
    ((sound.swap_backspaces haside (backspaces_backspaces raw)).append sound (kept raw))

-- Backspaces among the bytes of a sequence act as if they came before it, whatever the sequence
-- means and whatever follows it.
theorem backspaces_first (h : t.Reachable config) (hphase : t.phase = .normal) (raw : Bytes)
    (hcomplete : Sequence.Complete (Byte.escape :: (kept raw ++ [final])))
    (hfits : (Byte.escape :: (kept raw ++ [final])).length ≤ max config.escapeCapacity 8)
    (rest : Bytes) :
    t.Indistinct (Byte.escape :: (raw ++ final :: rest))
      (backspaces raw ++ Byte.escape :: (kept raw ++ final :: rest)) := by
  rw [← List.cons_append] at hcomplete
  obtain ⟨hopen, -⟩ := hcomplete.open (List.cons_ne_nil _ _)
  have hroom : (Byte.escape :: kept raw).length ≤ t.cleared.held.capacity := by
    rw [cleared, h.held_capacity]
    simp only [List.length_cons, List.length_append] at hfits ⊢
    omega
  have hsound := h.sound.cleared
  have hmoved := (hsound.backspaces_before hphase hopen hroom).append hsound (final :: rest)
  rw [List.append_assoc] at hmoved
  exact h.sound.indistinct hmoved.error hmoved.state

-- The cursor moves two steps to the left before it moves one to the right, over the text there.
theorem backspaces_first_cursor :
    let t := (((Terminal.ofConfig { lineCapacity := 8 }).setLogs none (some {})).feed
      [0x61, 0x62, 0x63]).state
    t.Indistinct [0x1b, 0x08, 0x5b, 0x31, 0x08, 0x43, 0x78]
      [0x08, 0x08, 0x1b, 0x5b, 0x31, 0x43, 0x78] := by
  intro t
  have hphase : t.phase = .normal := by decide +kernel
  have hbody : ∀ byte ∈ ['1'.toUInt8], Sequence.IsParameter byte := by
    intro byte hmem
    rw [List.mem_singleton.mp hmem]
    decide
  exact backspaces_first (.feed _ (.setLogs _ _ .start)) hphase [0x08, 0x5b, 0x31, 0x08]
    (.control ['1'.toUInt8] 'C'.toUInt8 hbody (by decide)) (by decide) [0x78]

end TerminalRelay.Terminal
