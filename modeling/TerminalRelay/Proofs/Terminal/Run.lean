import TerminalRelay.Proofs.Terminal.Page

namespace TerminalRelay

namespace Terminal

-- All that one byte does, field by field. The edit is the only part of it that can fail.
structure Settles (t : Terminal) (next : Reader × Report) (outcome : Outcome Terminal) : Prop where
  straight : outcome.state.held.Straight
  capacity : outcome.state.held.capacity = t.held.capacity
  reader : outcome.state.reader = next.1
  forward : outcome.state.forward = t.forward
  rawLog : outcome.state.rawLog = t.rawLog
  viewers : outcome.state.viewers = (t.accept next.2).viewers
  unhandled : outcome.state.unhandled = (t.accept next.2).unhandled
  error : outcome.error = (t.edit next.2.edit).error
  page : outcome.state.SamePage (t.edit next.2.edit).state

theorem Answers.settles {t : Terminal} {next : Reader × Report} {outcome : Outcome Terminal}
    (h : Answers t next outcome) : Settles t next outcome := by
  obtain ⟨held, straight, hcapacity, hlist, rfl⟩ := h
  have hpage : (({ t with held, phase := next.1.phase } : Terminal).accept next.2).SamePage t :=
    ⟨rfl, .refl _, rfl⟩
  obtain ⟨herror, hsame⟩ := hpage.edit next.2.edit
  obtain ⟨modes, line, plainLog, notices, hframe⟩ :=
    edit_frame (({ t with held, phase := next.1.phase } : Terminal).accept next.2) next.2.edit
  refine ⟨?_, ?_, ?_, ?_, ?_, ?_, ?_, herror, hsame⟩ <;> rw [hframe]
  · exact straight
  · exact hcapacity
  · exact congrArg (Reader.mk next.1.phase) (straight.slices.trans hlist)
  all_goals rfl

theorem Sound.settles {t : Terminal} (sound : t.Sound) (byte : UInt8) :
    Settles t (Reader.read t.held.capacity t.reader byte) (t.step byte) :=
  (sound.answers_step byte).settles

theorem Sound.step {t : Terminal} (sound : t.Sound) (byte : UInt8) : (t.step byte).state.Sound := by
  have hstep := sound.settles byte
  have hcapacity : 0 < t.held.capacity := t.held.capacity_pos
  refine ⟨hstep.straight, ?_, ?_⟩
  · rw [hstep.capacity]
    exact sound.roomy
  · rw [hstep.capacity, hstep.reader]
    exact sound.coherent.read hcapacity byte

-- The bytes of a chunk that are read: all of them, or those up to the one that could not be
-- dealt with
def consumed (t : Terminal) : Bytes → Bytes
  | [] => []
  | byte :: rest =>
    match t.step byte with
    | ⟨next, none⟩ => byte :: next.consumed rest
    | ⟨_, some _⟩ => [byte]

-- `u` is what `t` becomes by reading these bytes, whatever happens to the line meanwhile.
structure Reads (t : Terminal) (bytes : Bytes) (u : Terminal) : Prop where
  sound : u.Sound
  capacity : u.held.capacity = t.held.capacity
  reader : u.reader = t.reader.after t.held.capacity bytes
  forward : u.forward = t.forward
  rawLog : u.rawLog = t.rawLog
  shown : u.viewers.items.toList = t.viewers.items.toList ++
    if t.forward then t.reader.shown t.held.capacity bytes else []
  ended : u.viewers.ended = t.viewers.ended
  unhandled : u.unhandled =
    (t.reader.recorded t.held.capacity bytes).foldl History.push t.unhandled

theorem Reads.refl {t : Terminal} (sound : t.Sound) : t.Reads [] t := by
  refine ⟨sound, rfl, rfl, rfl, rfl, ?_, rfl, rfl⟩
  simp [Reader.shown]

theorem Reads.trans {t u v : Terminal} {left right : Bytes} (h : t.Reads left u)
    (h' : u.Reads right v) : t.Reads (left ++ right) v := by
  have hcapacity := h.capacity
  have hreader := h.reader
  refine ⟨h'.sound, h'.capacity.trans hcapacity, ?_, h'.forward.trans h.forward,
    h'.rawLog.trans h.rawLog, ?_, h'.ended.trans h.ended, ?_⟩
  · rw [h'.reader, hcapacity, hreader, Reader.after_append]
  · rw [h'.shown, h.shown, h.forward, hcapacity, hreader, Reader.shown_append]
    split <;> simp
  · rw [h'.unhandled, h.unhandled, hcapacity, hreader, Reader.recorded_append, List.foldl_append]

theorem Sound.reads_step {t : Terminal} (sound : t.Sound) (byte : UInt8) :
    t.Reads [byte] (t.step byte).state := by
  have hstep := sound.settles byte
  refine ⟨sound.step byte, hstep.capacity, hstep.reader, hstep.forward, hstep.rawLog, ?_, ?_, ?_⟩
  · rw [hstep.viewers]
    simp only [accept, Reader.shown, Reader.reports_cons, Reader.reports_nil, List.flatMap_cons,
      List.flatMap_nil, List.append_nil]
    split <;> simp
  · rw [hstep.viewers]
    simp only [accept]
    split <;> rfl
  · rw [hstep.unhandled]
    simp only [accept, Reader.recorded, Reader.reports_cons, Reader.reports_nil,
      List.filterMap_cons, List.filterMap_nil]
    cases (Reader.read t.held.capacity t.reader byte).2.recorded <;> rfl

theorem Sound.reads_interpret {t : Terminal} (sound : t.Sound) (chunk : Bytes) :
    t.Reads (t.consumed chunk) (t.interpret chunk).state := by
  induction chunk generalizing t with
  | nil => exact .refl sound
  | cons byte rest ih =>
      have hstep := sound.reads_step byte
      rw [interpret, consumed]
      generalize t.step byte = outcome at hstep
      obtain ⟨next, error⟩ := outcome
      cases error with
      | none => exact hstep.trans (ih hstep.sound)
      | some error => exact hstep

theorem consumed_eq {t : Terminal} (chunk : Bytes) (h : (t.interpret chunk).error = none) :
    t.consumed chunk = chunk := by
  induction chunk generalizing t with
  | nil => rfl
  | cons byte rest ih =>
      rw [interpret] at h
      rw [consumed]
      generalize t.step byte = outcome at h
      obtain ⟨next, error⟩ := outcome
      cases error with
      | none => exact congrArg (byte :: ·) (ih h)
      | some error => exact absurd h (by simp)

theorem interpret_singleton (t : Terminal) (byte : UInt8) : t.interpret [byte] = t.step byte := by
  rw [interpret]
  obtain ⟨next, error⟩ := t.step byte
  cases error <;> rfl

theorem interpret_cons (t : Terminal) (byte : UInt8) (rest : Bytes) :
    t.interpret (byte :: rest) = (t.step byte).andThen fun next => next.interpret rest := by
  rw [interpret]
  obtain ⟨next, error⟩ := t.step byte
  cases error <;> rfl

theorem interpret_append (t : Terminal) (left right : Bytes) :
    t.interpret (left ++ right) = (t.interpret left).andThen fun u => u.interpret right := by
  induction left generalizing t with
  | nil => rfl
  | cons byte rest ih =>
      rw [List.cons_append, interpret, interpret]
      obtain ⟨next, error⟩ := t.step byte
      cases error with
      | none => exact ih next
      | some error => rfl

-- Two terminals that go on in the same way: they differ at most in cells that hold nothing, in
-- what they already told, and in where they tell it.
structure Twins (t u : Terminal) : Prop where
  capacity : t.held.capacity = u.held.capacity
  reader : t.reader = u.reader
  unhandled : t.unhandled = u.unhandled
  page : t.SamePage u

theorem Twins.refl (t : Terminal) : t.Twins t := ⟨rfl, rfl, rfl, .refl t⟩

theorem Twins.symm {t u : Terminal} (twins : t.Twins u) : u.Twins t :=
  ⟨twins.capacity.symm, twins.reader.symm, twins.unhandled.symm, twins.page.symm⟩

theorem Twins.trans {t u v : Terminal} (twins : t.Twins u) (twins' : u.Twins v) : t.Twins v :=
  ⟨twins.capacity.trans twins'.capacity, twins.reader.trans twins'.reader,
    twins.unhandled.trans twins'.unhandled, twins.page.trans twins'.page⟩

theorem Twins.step {t u : Terminal} (twins : t.Twins u) (sound : t.Sound) (sound' : u.Sound)
    (byte : UInt8) : (t.step byte).error = (u.step byte).error ∧
    (t.step byte).state.Twins (u.step byte).state := by
  have h := sound.settles byte
  have h' := sound'.settles byte
  rw [← twins.capacity, ← twins.reader] at h'
  obtain ⟨herror, hpage⟩ := twins.page.edit (t.reader.read t.held.capacity byte).2.edit
  refine ⟨?_, ?_, ?_, ?_, ?_⟩
  · rw [h.error, h'.error, herror]
  · rw [h.capacity, h'.capacity, twins.capacity]
  · rw [h.reader, h'.reader]
  · rw [h.unhandled, h'.unhandled]
    simp only [accept, twins.unhandled]
  · exact (h.page.trans hpage).trans h'.page.symm

-- What each step keeps between two terminals, so long as they fail alike, a run keeps as well.
theorem interpret_parallel {R : Terminal → Terminal → Prop}
    (hstep : ∀ (t u : Terminal) (byte : UInt8), t.Sound → u.Sound → R t u →
      (t.step byte).error = (u.step byte).error ∧ R (t.step byte).state (u.step byte).state)
    {t u : Terminal} (sound : t.Sound) (sound' : u.Sound) (h : R t u) (chunk : Bytes) :
    (t.interpret chunk).error = (u.interpret chunk).error ∧
    R (t.interpret chunk).state (u.interpret chunk).state ∧
    t.consumed chunk = u.consumed chunk := by
  induction chunk generalizing t u with
  | nil => exact ⟨rfl, h, rfl⟩
  | cons byte rest ih =>
      obtain ⟨herror, hnext⟩ := hstep t u byte sound sound' h
      have hsound := sound.step byte
      have hsound' := sound'.step byte
      simp only [interpret, consumed]
      generalize t.step byte = outcome at herror hnext hsound
      generalize u.step byte = outcome' at herror hnext hsound'
      obtain ⟨next, error⟩ := outcome
      obtain ⟨next', error'⟩ := outcome'
      dsimp only at herror
      subst herror
      cases error with
      | none =>
          obtain ⟨hsame, hrest, hconsumed⟩ := ih hsound hsound' hnext
          exact ⟨hsame, hrest, congrArg (byte :: ·) hconsumed⟩
      | some error => exact ⟨rfl, hnext, rfl⟩

theorem Twins.interpret {t u : Terminal} (twins : t.Twins u) (sound : t.Sound) (sound' : u.Sound)
    (chunk : Bytes) : (t.interpret chunk).error = (u.interpret chunk).error ∧
    (t.interpret chunk).state.Twins (u.interpret chunk).state ∧
    t.consumed chunk = u.consumed chunk :=
  interpret_parallel (fun _ _ byte hsound hsound' h => h.step hsound hsound' byte) sound sound'
    twins chunk

-- A call starts with nothing told.
def cleared (t : Terminal) : Terminal :=
  { t with viewers := {}, notices := #[] }

theorem Sound.congr {t u : Terminal} (sound : t.Sound) (hheld : u.held = t.held)
    (hphase : u.phase = t.phase) : u.Sound := by
  obtain ⟨modes, line, held, phase, forward, unhandled, plainLog, rawLog, viewers, notices⟩ := u
  dsimp only at hheld hphase
  subst hheld hphase
  exact ⟨sound.straight, sound.roomy, sound.coherent⟩

theorem Sound.cleared {t : Terminal} (sound : t.Sound) : t.cleared.Sound := sound.congr rfl rfl

theorem twins_cleared (t : Terminal) : t.cleared.Twins t := ⟨rfl, rfl, rfl, rfl, .refl _, rfl⟩

theorem logRaw_frame (t : Terminal) (chunk : Bytes) :
    (t.logRaw chunk).state = { t with rawLog := (t.logRaw chunk).state.rawLog } := by
  unfold logRaw
  split <;> rfl

-- The end of a call: the error that is told, or else the newline that closes the stream
def conclude (interpreted logged : Outcome Terminal) : Outcome Terminal :=
  match logged.error.or interpreted.error with
  | some error => ⟨logged.state, some error⟩
  | none =>
    ⟨{ logged.state with
        viewers := { logged.state.viewers with ended := logged.state.forward } }, none⟩

theorem feed_eq (t : Terminal) (chunk : Bytes) : t.feed chunk =
    conclude (t.cleared.interpret chunk) ((t.cleared.interpret chunk).state.logRaw chunk) := rfl

theorem conclude_error (interpreted logged : Outcome Terminal) :
    (conclude interpreted logged).error = logged.error.or interpreted.error := by
  unfold conclude
  cases logged.error.or interpreted.error <;> rfl

theorem conclude_state (interpreted logged : Outcome Terminal) :
    (conclude interpreted logged).state = { logged.state with
      viewers := { logged.state.viewers with
        ended := if (conclude interpreted logged).error = none then logged.state.forward
          else logged.state.viewers.ended } } := by
  rw [conclude_error]
  unfold conclude
  cases logged.error.or interpreted.error <;> rfl

-- What a call adds to the reading of its chunk: the raw log, and the newline of a success
theorem feed_state (t : Terminal) (chunk : Bytes) : (t.feed chunk).state =
    { (t.cleared.interpret chunk).state with
      rawLog := ((t.cleared.interpret chunk).state.logRaw chunk).state.rawLog
      viewers := { (t.cleared.interpret chunk).state.viewers with
        ended := if (t.feed chunk).error = none then (t.cleared.interpret chunk).state.forward
          else (t.cleared.interpret chunk).state.viewers.ended } } := by
  rw [feed_eq, conclude_state, logRaw_frame]

theorem twins_feed (t : Terminal) (chunk : Bytes) :
    (t.feed chunk).state.Twins (t.cleared.interpret chunk).state := by
  rw [feed_state]
  exact ⟨rfl, rfl, rfl, rfl, .refl _, rfl⟩

theorem Sound.feed {t : Terminal} (sound : t.Sound) (chunk : Bytes) :
    (t.feed chunk).state.Sound := by
  have hread := (sound.cleared.reads_interpret chunk).sound
  rw [feed_state]
  exact hread.congr rfl rfl

-- A call reads on where the last one stopped.
theorem Sound.reader_feed {t : Terminal} (sound : t.Sound) (chunk : Bytes) :
    (t.feed chunk).state.forward = t.forward ∧
    (t.feed chunk).state.held.capacity = t.held.capacity ∧
    (t.feed chunk).state.reader =
      t.reader.after t.held.capacity (t.cleared.consumed chunk) := by
  have hread := sound.cleared.reads_interpret chunk
  rw [feed_state]
  exact ⟨hread.forward, hread.capacity, hread.reader⟩

end Terminal

end TerminalRelay
