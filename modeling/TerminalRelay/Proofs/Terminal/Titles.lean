import TerminalRelay.Proofs.Mirror.Silent
import TerminalRelay.Proofs.Terminal.Alike
import TerminalRelay.Proofs.Terminal.Chunks

namespace TerminalRelay

open Mirror (TitleText Backspaces)

-- A title from its introducer to its end, which is BEL or `ESC \` with backspaces in between
inductive WholeTitle : Bytes → Prop
  | bel (text : Bytes) (htext : TitleText text) :
      WholeTitle (Byte.escape :: ']'.toUInt8 :: (text ++ [Byte.bel]))
  | stringTerminator (text inner : Bytes) (htext : TitleText text) (hinner : Backspaces inner) :
      WholeTitle
        (Byte.escape :: ']'.toUInt8 :: (text ++ (Byte.escape :: inner ++ [Byte.backslash])))

-- Bytes that are passed over in a phase: a whole title where no sequence is open, and text where a
-- title is
inductive PassedOver : Phase → Bytes → Prop
  | title {bytes : Bytes} (h : WholeTitle bytes) : PassedOver .normal bytes
  | text {bytes : Bytes} (h : TitleText bytes) : PassedOver (.title false) bytes

theorem Reader.silent_title {capacity : Nat} (hcapacity : 1 < capacity) {title : Bytes}
    (h : WholeTitle title) : Silent capacity ground title ground := by
  have hstart : read capacity ground Byte.escape = (opened, {}) := rfl
  have hbegin := read_titleIntroducer hcapacity
  cases h with
  | bel text htext =>
      have hend : Silent capacity ⟨.title false, []⟩ [Byte.bel] ground := .cons rfl (.nil _)
      exact .cons hstart (.cons hbegin ((silent_text htext).append hend))
  | stringTerminator text inner htext hinner =>
      have hend : Silent capacity ⟨.title true, []⟩ [Byte.backslash] ground := .cons rfl (.nil _)
      have hterminator := (silent_escape hinner).append hend
      exact .cons hstart (.cons hbegin ((silent_text htext).append hterminator))

namespace Terminal

open Reader (Silent)

-- Such bytes leave at most a phase, and a store, of their own.
theorem Sound.interpret_silent {t : Terminal} (sound : t.Sound) {next : Reader} {bytes : Bytes}
    (h : Silent t.held.capacity t.reader bytes next) :
    ∃ held phase, t.interpret bytes = ⟨{ t with held, phase }, none⟩ ∧
      held.capacity = t.held.capacity ∧ ({ t with held, phase } : Terminal).reader = next := by
  generalize hcapacity : t.held.capacity = capacity at h ⊢
  generalize hreader : t.reader = reader at h
  induction h generalizing t with
  | nil reader => exact ⟨t.held, t.phase, rfl, hcapacity, hreader⟩
  | @cons reader between next byte rest hread h ih =>
      obtain ⟨held, straight, hkept, hheld, hstep⟩ := sound.answers_step byte
      rw [hcapacity, hreader, hread] at hheld hstep
      rw [accept_nothing] at hstep
      have hbetween : ({ t with held, phase := between.phase } : Terminal).reader = between :=
        congrArg (Reader.mk between.phase) (straight.slices.trans hheld)
      have hsound := sound.step byte
      rw [hstep] at hsound
      obtain ⟨held', phase', hinterpret, hcapacity', hreader'⟩ :=
        ih hsound (hkept.trans hcapacity) hbetween
      refine ⟨held', phase', ?_, hcapacity', hreader'⟩
      rw [Terminal.interpret, hstep]
      exact hinterpret

theorem Sound.interpret_passedOver {t : Terminal} (sound : t.Sound) {bytes : Bytes}
    (h : PassedOver t.phase bytes) :
    (t.interpret bytes).error = none ∧ (t.interpret bytes).state.Alike t := by
  have hcapacity : 1 < t.held.capacity := Nat.le_trans (by decide) sound.roomy
  have hsilent : Silent t.held.capacity t.reader bytes t.reader := by
    generalize hphase : t.phase = phase at h
    cases h with
    | title htitle =>
        rw [sound.reader_ground hphase]
        exact Reader.silent_title hcapacity htitle
    | text htext =>
        have hreader : t.reader = ⟨.title false, []⟩ := by
          have hnil := sound.held_eq_nil (.inr (by rw [hphase]; rfl))
          rw [reader, hphase, hnil]
        rw [hreader]
        exact Reader.silent_text htext
  obtain ⟨held, phase, hinterpret, hkept, hreader⟩ := sound.interpret_silent hsilent
  rw [hinterpret]
  exact ⟨rfl, ⟨hkept, hreader, rfl, rfl, .refl _, rfl⟩, rfl, rfl, rfl⟩

-- Two streams of output that differ in titles only: where no sequence is open one may have a title
-- that the other has not, and in an open title one may have text that the other has not.
inductive Retitled : Terminal → Bytes → Bytes → Prop
  | nil (t : Terminal) : Retitled t [] []
  | byte {t : Terminal} {left right : Bytes} (byte : UInt8)
      (h : Retitled (t.step byte).state left right) : Retitled t (byte :: left) (byte :: right)
  | left {t : Terminal} {bytes left right : Bytes} (hbytes : PassedOver t.phase bytes)
      (h : Retitled t left right) : Retitled t (bytes ++ left) right
  | right {t : Terminal} {bytes left right : Bytes} (hbytes : PassedOver t.phase bytes)
      (h : Retitled t left right) : Retitled t left (bytes ++ right)

theorem Retitled.refl (t : Terminal) (bytes : Bytes) : Retitled t bytes bytes := by
  induction bytes generalizing t with
  | nil => exact .nil t
  | cons byte rest ih => exact .byte byte (ih _)

-- A run that begins with such bytes goes on as if it began behind them.
theorem Sound.interpret_behind {t : Terminal} (sound : t.Sound) {bytes : Bytes}
    (h : PassedOver t.phase bytes) (rest : Bytes) :
    ∃ next : Terminal, next.Sound ∧ next.Alike t ∧
      t.interpret (bytes ++ rest) = next.interpret rest := by
  obtain ⟨hnone, hback⟩ := sound.interpret_passedOver h
  have hsound := (sound.reads_interpret bytes).sound
  rw [interpret_append]
  generalize t.interpret bytes = outcome at hnone hback hsound ⊢
  obtain ⟨next, error⟩ := outcome
  dsimp only at hnone hback hsound
  subst hnone
  exact ⟨next, hsound, hback, rfl⟩

-- The two runs go side by side with the terminal at which the streams are compared.
theorem Retitled.interpret {t u v : Terminal} {left right : Bytes} (h : t.Retitled left right)
    (twins : u.Twins t) (alike : u.Alike v) (sound : t.Sound) (soundU : u.Sound)
    (soundV : v.Sound) : (u.interpret left).error = (v.interpret right).error ∧
    (u.interpret left).state.Alike (v.interpret right).state := by
  induction h generalizing u v with
  | nil t => exact ⟨rfl, alike⟩
  | @byte t left right byte h ih =>
      obtain ⟨-, htwins⟩ := twins.step soundU sound byte
      obtain ⟨hsame, hstep⟩ := alike.step soundU soundV byte
      have hsound := sound.step byte
      have hsoundU := soundU.step byte
      have hsoundV := soundV.step byte
      rw [Terminal.interpret, Terminal.interpret]
      generalize u.step byte = outcome at hsame htwins hstep hsoundU ⊢
      generalize v.step byte = outcome' at hsame hstep hsoundV ⊢
      obtain ⟨next, error⟩ := outcome
      obtain ⟨next', error'⟩ := outcome'
      dsimp only at hsame
      subst hsame
      cases error with
      | none => exact ih htwins hstep hsound hsoundU hsoundV
      | some error => exact ⟨rfl, hstep⟩
  | @left t bytes left right hbytes h ih =>
      have hphase : u.phase = t.phase := congrArg Reader.phase twins.reader
      obtain ⟨next, hnext, hback, heq⟩ := soundU.interpret_behind (hphase ▸ hbytes) left
      rw [heq]
      exact ih (hback.toTwins.trans twins) (hback.trans alike) sound hnext soundV
  | @right t bytes left right hbytes h ih =>
      have hphase : v.phase = t.phase :=
        congrArg Reader.phase (alike.symm.reader.trans twins.reader)
      obtain ⟨next, hnext, hback, heq⟩ := soundV.interpret_behind (hphase ▸ hbytes) right
      rw [heq]
      exact ih twins (alike.trans hback.symm) sound soundU hnext

-- Nothing but the raw log tells which of two streams was read: not a call with all of it, whatever
-- becomes of the call, nor calls with parts of it, if the raw log does not break them off.
structure Indistinct (t : Terminal) (left right : Bytes) : Prop where
  course : (t.feed left).state.SameCourse (t.feed right).state
  notices : (t.feed left).state.notices = (t.feed right).state.notices
  told : told (t.feed left) = told (t.feed right)
  calls : ∀ chunks chunks' : List Bytes, chunks.flatten = left → chunks'.flatten = right →
    ¬ RawLogFailed (t.feedAll chunks).1 → ¬ RawLogFailed (t.feedAll chunks').1 →
      (t.feedAll chunks).1.error = (t.feedAll chunks').1.error ∧
      (t.feedAll chunks).1.state.SameCourse (t.feedAll chunks').1.state ∧
      (t.feedAll chunks).2 = (t.feedAll chunks').2

-- To be indistinct it is enough to come to the same where all of either stream is read at once.
theorem Sound.indistinct {t : Terminal} (sound : t.Sound) {left right : Bytes}
    (herror : (t.cleared.interpret left).error = (t.cleared.interpret right).error)
    (halike : (t.cleared.interpret left).state.Alike (t.cleared.interpret right).state) :
    t.Indistinct left right := by
  have hshown := congrArg (fun stream => Transport.render stream.items.toList) halike.viewers
  refine ⟨?_, ?_, ?_, ?_⟩
  · exact ((twins_feed t left).trans (halike.toTwins.trans (twins_feed t right).symm)).sameCourse
  · rw [feed_state, feed_state]
    exact halike.notices
  · rw [sound.told_feed, sound.told_feed]
    exact hshown
  · rintro chunks chunks' rfl rfl hraw hraw'
    obtain ⟨herror₁, htwins₁, -, htold₁⟩ := (twins_cleared t).symm.feedAll_of_takes sound
      sound.cleared rfl (takes_of_not_failed chunks hraw)
    obtain ⟨herror₂, htwins₂, -, htold₂⟩ := (twins_cleared t).symm.feedAll_of_takes sound
      sound.cleared rfl (takes_of_not_failed chunks' hraw')
    refine ⟨herror₁.trans (herror.trans herror₂.symm), ?_, ?_⟩
    · exact (htwins₁.trans (halike.toTwins.trans htwins₂.symm)).sameCourse
    · exact htold₁.symm.trans (hshown.trans htold₂)

theorem Retitled.indistinct {t : Terminal} (sound : t.Sound) {left right : Bytes}
    (h : t.Retitled left right) : t.Indistinct left right := by
  obtain ⟨herror, halike⟩ := h.interpret (twins_cleared t) (.refl t.cleared) sound sound.cleared
    sound.cleared
  exact sound.indistinct herror halike

-- A title may say anything at any length: where no sequence is open it leaves no trace, nor does
-- what titles say anywhere in a stream.
theorem titles_leave_no_trace {config : Config} {t : Terminal} (h : t.Reachable config) :
    (t.phase = .normal → ∀ title rest : Bytes, WholeTitle title →
      t.Indistinct (title ++ rest) rest) ∧
    ∀ left right : Bytes, t.Retitled left right → t.Indistinct left right := by
  refine ⟨?_, fun left right hretitled => hretitled.indistinct h.sound⟩
  intro hphase title rest htitle
  have hbytes : PassedOver t.phase title := hphase ▸ .title htitle
  exact (Retitled.left hbytes (.refl t rest)).indistinct h.sound

-- A title with a newline and a backspace in it, and with another one inside its terminator
theorem titles_leave_no_trace_newline :
    let t := (Terminal.ofConfig { lineCapacity := 4 }).setLogs (some {}) (some {})
    t.Indistinct ([0x1b, 0x5d, 0x6c, 0x0a, 0x08, 0x1b, 0x08, 0x5c] ++ [0x61, 0x0a])
      [0x61, 0x0a] := by
  intro t
  have htext : TitleText [0x6c, 0x0a, 0x08] := by
    simp [TitleText, Byte.carriageReturn, Byte.bel, Byte.escape]
  have hinner : Backspaces [0x08] := by
    simp [Backspaces, Byte.backspace]
  exact (titles_leave_no_trace (.setLogs _ _ .start)).1 rfl _ _ (.stringTerminator _ _ htext hinner)

end Terminal

end TerminalRelay
