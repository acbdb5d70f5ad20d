import TerminalRelay.Proofs.ByteRing.Content
import TerminalRelay.Proofs.Terminal.Reader
import TerminalRelay.Terminal.Feed

namespace TerminalRelay.Terminal

def reader (t : Terminal) : Reader := ⟨t.phase, t.heldBytes⟩

-- What a report adds to the accounts a terminal keeps. The line and the modes are left to `edit`.
def accept (t : Terminal) (report : Report) : Terminal :=
  { t with
    viewers := if t.forward then
        { t.viewers with items := t.viewers.items ++ report.shown }
      else t.viewers
    unhandled := report.recorded.elim t.unhandled t.unhandled.push
    notices := report.notice.elim t.notices t.notices.push }

def edit (t : Terminal) : Edit → Outcome Terminal
  | .keep => ⟨t, none⟩
  | .put byte => t.putLine byte
  | .endLine => t.endLine
  | .returnCarriage => ⟨t.returnCarriage, none⟩
  | .stepBack => ⟨t.stepBack, none⟩
  | .act action => ⟨t.apply action, none⟩

-- The terminal `t` reads on to `next`, and that amounts to the report beside it.
def Answers (t : Terminal) (next : Reader × Report) (outcome : Outcome Terminal) : Prop :=
  ∃ held : ByteRing, held.Straight ∧ held.capacity = t.held.capacity ∧ held.toList = next.1.held ∧
    outcome = (({ t with held, phase := next.1.phase } : Terminal).accept next.2).edit next.2.edit

-- A turn that ends in another reading of the byte is followed by the turns that are left.
def finish (limit : Nat) (byte : UInt8) : Turn → Outcome Terminal
  | .settled outcome => outcome
  | .again t => turns limit t byte

theorem turns_succ (limit : Nat) (t : Terminal) (byte : UInt8) :
    turns (limit + 1) t byte = finish limit byte (t.turn byte) := by
  rw [turns]
  cases t.turn byte <;> rfl

theorem emit_eq_accept (t : Terminal) (items : List Transport.Item) :
    t.emit items = t.accept { shown := items } := by
  unfold emit accept
  split <;> rfl

theorem note_eq_accept (t : Terminal) (notice : Notice) :
    t.note notice = t.accept { notice := some notice } := by
  cases hforward : t.forward <;> simp [note, accept, hforward]

theorem recordHeld_eq_accept (t : Terminal) :
    t.recordHeld = t.accept { recorded := some t.heldBytes } := by
  cases hforward : t.forward <;> simp [recordHeld, accept, hforward]

theorem accept_nothing (t : Terminal) : t.accept {} = t := by
  simp [accept]

-- An account goes on where the one before it stopped.
theorem accept_accept (t : Terminal) (earlier later : Report)
    (hrecorded : earlier.recorded = none ∨ later.recorded = none)
    (hnotice : earlier.notice = none ∨ later.notice = none) :
    (t.accept earlier).accept later = t.accept (earlier.join later) := by
  have hshown : t.viewers.items ++ earlier.shown ++ later.shown =
      t.viewers.items ++ (earlier.shown ++ later.shown) := Array.ext' (by simp)
  rcases hrecorded with hr | hr <;> rcases hnotice with hn | hn <;>
    cases hforward : t.forward <;> simp [accept, Report.join, hforward, hshown, hr, hn]

theorem plain_eq (t : Terminal) (byte : UInt8) :
    t.plain byte = (t.accept { shown := [.data byte] }).edit (.ofText byte) := by
  unfold plain Edit.ofText
  rw [forwardByte, emit_eq_accept]
  split
  · rfl
  · split <;> rfl

-- What is held is put aside first, so that the text before and after it stays in order.
theorem abandon_eq (t : Terminal) :
    t.abandon = t.toNormal.accept { shown := t.reader.withheld.map .data } := by
  unfold abandon Reader.withheld reader
  split
  · simp only [forwardHeld, emit_eq_accept]
    rfl
  · exact (accept_nothing _).symm

variable {t : Terminal}

-- The two readings that need no bytes of the sequence before them
theorem answers_ground (straight : t.held.Straight) (report : Report) :
    Answers t (.ground, report) ((t.toNormal.accept report).edit report.edit) :=
  ⟨t.held.clear, straight.clear, rfl, ByteRing.toList_clear _, rfl⟩

theorem answers_opened (straight : t.held.Straight) (report : Report) :
    Answers t (.opened, report) ((t.beginSequence.accept report).edit report.edit) :=
  ⟨_, straight.clear.put _ _, ByteRing.capacity_put _ _ _, ByteRing.toList_clear_put _ _, rfl⟩

-- A reading that keeps what is held
theorem answers_same (straight : t.held.Straight) (phase : Phase) (report : Report) :
    Answers t (⟨phase, t.heldBytes⟩, report)
      ((({ t with phase } : Terminal).accept report).edit report.edit) :=
  ⟨t.held, straight, rfl, straight.slices.symm, rfl⟩

theorem answers_stay (straight : t.held.Straight) {phase : Phase} (hphase : t.phase = phase) :
    Answers t (⟨phase, t.heldBytes⟩, {}) ⟨t, none⟩ := by
  subst hphase
  have := answers_same straight t.phase {}
  rwa [accept_nothing] at this

-- A change of phase while nothing is held
theorem answers_rest (straight : t.held.Straight) (hnil : t.heldBytes = []) (phase : Phase) :
    Answers t (⟨phase, []⟩, {}) ⟨{ t with phase }, none⟩ := by
  have := answers_same straight phase {}
  rwa [accept_nothing, hnil] at this

theorem passThrough_eq (t : Terminal) (byte : UInt8) : t.passThrough byte =
    if Sequence.IsParameter byte then .done (t.forwardByte byte)
    else if Sequence.IsControlFinal byte then
      .done (if byte = 'm'.toUInt8 then t.forwardByte byte
        else (t.forwardByte byte).recordHeld).toNormal
    else .again t.toNormal := rfl

-- After CR, BS and BEL only ESC is not text to a terminal in no sequence.
theorem turn_normal (hphase : t.phase = .normal) (byte : UInt8)
    (hcontrol : byte ≠ Byte.carriageReturn ∧ byte ≠ Byte.backspace ∧ byte ≠ Byte.bel) :
    t.turn byte =
      if byte = Byte.escape then .done t.beginSequence else .settled (t.plain byte) := by
  simp only [turn, hcontrol, ite_false, hphase]

theorem answers_passThrough (straight : t.held.Straight) (hphase : t.phase = .overlong)
    (byte : UInt8)
    (hcontrol : byte ≠ Byte.carriageReturn ∧ byte ≠ Byte.backspace ∧ byte ≠ Byte.bel)
    (limit : Nat) :
    Answers t (Reader.readOverlong t.heldBytes byte)
      (finish (limit + 1) byte (t.passThrough byte)) := by
  rw [passThrough_eq]
  unfold Reader.readOverlong
  by_cases hparameter : Sequence.IsParameter byte
  · rw [if_pos hparameter, if_pos hparameter, forwardByte, emit_eq_accept, ← hphase]
    exact answers_same straight t.phase { shown := [.data byte] }
  rw [if_neg hparameter, if_neg hparameter]
  by_cases hfinal : Sequence.IsControlFinal byte
  · rw [if_pos hfinal, if_pos hfinal, forwardByte, emit_eq_accept]
    by_cases hm : byte = 'm'.toUInt8
    · rw [if_pos hm, if_pos hm]
      exact answers_ground straight { shown := [.data byte] }
    · rw [if_neg hm, if_neg hm]
      have hrecord : (t.accept { shown := [.data byte] }).recordHeld.toNormal =
          t.toNormal.accept { shown := [.data byte], recorded := some t.heldBytes } := by
        rw [recordHeld_eq_accept, accept_accept _ _ _ (.inl rfl) (.inl rfl)]
        rfl
      rw [hrecord]
      exact answers_ground straight { shown := [.data byte], recorded := some t.heldBytes }
  rw [if_neg hfinal, if_neg hfinal]
  simp only [finish, turns_succ, turn_normal (t := t.toNormal) rfl byte hcontrol]
  by_cases hescape : byte = Byte.escape
  · rw [if_pos hescape, if_pos hescape]
    have := answers_opened straight {}
    rwa [accept_nothing] at this
  · rw [if_neg hescape, if_neg hescape, Reader.readText]
    simp only [plain_eq]
    exact answers_ground straight { shown := [.data byte], edit := .ofText byte }

theorem showAction_eq (t : Terminal) (action : Action) :
    t.showAction action = t.accept { shown := Reader.shownAction t.heldBytes action } := by
  cases action <;> exact emit_eq_accept _ _

-- An action of a sequence changes the line or a mode, or leaves a notice; the accounts do not
-- depend on it.
theorem showAction_apply (t : Terminal) (action : Action) :
    ((t.apply action).showAction action).toNormal =
      (t.toNormal.accept { shown := Reader.shownAction t.heldBytes action }).apply action := by
  have hline (report : Report) : (t.toNormal.accept report).line = t.line := rfl
  have hmodes (report : Report) : (t.toNormal.accept report).modes = t.modes := rfl
  rw [showAction_eq]
  cases action with
  | eraseToEnd => rfl
  | cursorUp count =>
      simp only [apply, cursorUp, hmodes]
      cases t.modes.window <;> rfl
  | cursorForward count =>
      simp only [apply, cursorForward, hline]
      by_cases hinside : t.line.cursor < t.line.size
      · rw [if_pos hinside, if_pos hinside]
        rfl
      · rw [if_neg hinside, if_neg hinside]
        by_cases room : t.line.cursor < t.line.capacity
        · rw [dif_pos room, dif_pos room]
          rfl
        · rw [dif_neg room, dif_neg room]
          rfl
  | deleteChars count =>
      simp only [apply, deleteChars, hline]
      by_cases hinside : count < t.line.size - t.line.cursor
      · rw [if_pos hinside, if_pos hinside]
        rfl
      · rw [if_neg hinside, if_neg hinside]
        rfl
  | appCursor on => rfl
  | altScreen mode on => rfl

-- The byte that a sequence cannot go on with is text, after all that was held.
theorem answers_aborted (straight : t.held.Straight) (hphase : t.phase = .collecting)
    {before : Bytes} {byte : UInt8} (hraw : t.heldBytes = before ++ [byte]) (limit : Nat) :
    Answers t (Reader.readScanned t.heldBytes byte .aborted)
      (finish limit byte (t.complete byte .aborted)) := by
  have hcut : (t.held.truncate (t.held.size - 1)).Straight :=
    ⟨straight.start, by simp only [ByteRing.truncate, straight.cursor]; omega⟩
  have hbefore : (t.held.truncate (t.held.size - 1)).slices.1 = before := by
    have hlist : t.held.toList = before ++ [byte] := by rw [← straight.slices]; exact hraw
    have hsize : t.held.size - 1 = before.length := by
      rw [← ByteRing.length_toList, hlist, List.length_append]
      rfl
    rw [hcut.slices, ByteRing.toList_truncate, hlist, hsize, List.take_left]
  have hbroken : ({ t with held := t.held.truncate (t.held.size - 1) } : Terminal).abandon =
      t.toNormal.accept { shown := before.map .data } := by
    rw [abandon_eq, ← hbefore]
    simp only [reader, Reader.withheld, hphase]
    rfl
  simp only [complete, hbroken, plain_eq]
  rw [accept_accept _ _ _ (.inl rfl) (.inl rfl)]
  have := answers_ground straight { shown := t.heldBytes.map .data, edit := .ofText byte }
  rw [hraw, List.map_append] at this
  simp only [Reader.readScanned, hraw, List.map_append]
  exact this

theorem answers_complete (straight : t.held.Straight) (hphase : t.phase = .collecting)
    (before : Bytes) (byte : UInt8) (hraw : t.heldBytes = before ++ [byte]) (outcome : Scan)
    (limit : Nat) :
    Answers t (Reader.readScanned t.heldBytes byte outcome)
      (finish limit byte (t.complete byte outcome)) := by
  have hwithheld : t.reader.withheld = t.heldBytes := if_pos hphase
  cases outcome with
  | pending => exact answers_stay straight hphase
  | title =>
      refine ⟨t.held.clear, straight.clear, rfl, ByteRing.toList_clear _, ?_⟩
      exact congrArg (Outcome.mk · none) (accept_nothing _).symm
  | known action =>
      simp only [complete, showAction_apply]
      exact answers_ground straight
        { shown := Reader.shownAction t.heldBytes action, edit := .act action }
  | unknown =>
      have hlast : t.heldBytes.getLast? = some 'm'.toUInt8 ↔ byte = 'm'.toUInt8 := by
        rw [hraw, List.getLast?_concat, Option.some_inj]
      simp only [complete, Reader.readScanned, hlast]
      by_cases hm : byte = 'm'.toUInt8
      · rw [if_pos hm, if_pos hm, abandon_eq, hwithheld]
        exact answers_ground straight { shown := t.heldBytes.map .data }
      · rw [if_neg hm, if_neg hm]
        have hrecord : (t.note (.unhandledSequence t.heldBytes)).recordHeld = t.accept
            { recorded := some t.heldBytes, notice := some (.unhandledSequence t.heldBytes) } := by
          rw [note_eq_accept, recordHeld_eq_accept]
          exact accept_accept t { notice := some (.unhandledSequence t.heldBytes) }
            { recorded := some t.heldBytes } (.inl rfl) (.inr rfl)
        have hshow : ((t.note (.unhandledSequence t.heldBytes)).recordHeld).abandon =
            t.toNormal.accept (.ofUnhandled t.heldBytes) := by
          have hjoin := accept_accept t.toNormal
            { recorded := some t.heldBytes, notice := some (.unhandledSequence t.heldBytes) }
            { shown := t.reader.withheld.map .data } (.inr rfl) (.inr rfl)
          rw [hrecord, abandon_eq]
          exact hwithheld ▸ hjoin
        rw [hshow]
        exact answers_ground straight (.ofUnhandled t.heldBytes)
  | aborted => exact answers_aborted straight hphase hraw limit

-- The answer does not depend on how far the sequence was read before.
theorem Answers.of_reading {held : ByteRing} {phase : Phase} {next : Reader × Report}
    {outcome : Outcome Terminal} (hcapacity : held.capacity = t.held.capacity)
    (h : Answers { t with held, phase } next outcome) : Answers t next outcome := by
  obtain ⟨ring, straight, hring, hlist, rfl⟩ := h
  exact ⟨ring, straight, hring.trans hcapacity, hlist, rfl⟩

theorem Answers.of_accept (phase : Phase) {earlier : Report} {next : Reader × Report}
    {outcome : Outcome Terminal} (hrecorded : earlier.recorded = none)
    (hnotice : next.2.notice = none)
    (h : Answers (({ t with phase } : Terminal).accept earlier) next outcome) :
    Answers t (next.1, earlier.join next.2) outcome := by
  obtain ⟨ring, straight, hring, hlist, rfl⟩ := h
  refine ⟨ring, straight, hring, hlist, ?_⟩
  rw [← accept_accept _ _ _ (.inl hrecorded) (.inr hnotice)]
  rfl

theorem readOverlong_notice (held : Bytes) (byte : UInt8) :
    (Reader.readOverlong held byte).2.notice = none := by
  unfold Reader.readOverlong
  split
  · rfl
  · split
    · rfl
    · split <;> rfl

theorem length_heldBytes (straight : t.held.Straight) : t.heldBytes.length = t.held.cursor := by
  rw [heldBytes, straight.slices, ByteRing.length_toList, straight.cursor]

theorem answers_collect (straight : t.held.Straight) (hphase : t.phase = .collecting)
    (byte : UInt8)
    (hcontrol : byte ≠ Byte.carriageReturn ∧ byte ≠ Byte.backspace ∧ byte ≠ Byte.bel)
    (limit : Nat) :
    Answers t (Reader.readHeld t.held.capacity t.heldBytes byte)
      (finish (limit + 2) byte (t.collect byte)) := by
  have hwithheld : t.reader.withheld = t.heldBytes := if_pos hphase
  unfold collect Reader.readHeld
  by_cases hescape : byte = Byte.escape
  · rw [if_pos hescape, if_pos hescape, abandon_eq, hwithheld]
    exact answers_opened straight { shown := t.heldBytes.map .data }
  rw [if_neg hescape, if_neg hescape, length_heldBytes straight]
  by_cases room : t.held.cursor < t.held.capacity
  · rw [if_pos room, dif_pos room]
    have hraw : (t.held.put byte room).slices.1 = t.heldBytes ++ [byte] := by
      rw [(straight.put byte room).slices, straight.toList_put, heldBytes, straight.slices]
    have hscanned := answers_complete (t := { t with held := t.held.put byte room })
      (straight.put byte room) hphase t.heldBytes byte hraw (Sequence.scan (t.heldBytes ++ [byte]))
      (limit + 2)
    simp only [heldBytes] at hraw hscanned ⊢
    rw [hraw] at hscanned ⊢
    exact hscanned.of_reading (ByteRing.capacity_put _ _ _)
  · rw [if_neg room, dif_neg room]
    have hspill : ({ (t.note (.sequenceTooLong t.held.size)).forwardHeld with
          phase := .overlong } : Terminal) = ({ t with phase := .overlong } : Terminal).accept
        { shown := t.heldBytes.map .data, notice := some (.sequenceTooLong t.held.cursor) } := by
      have hjoin := accept_accept { t with phase := .overlong }
        { notice := some (.sequenceTooLong t.held.size) } { shown := t.heldBytes.map .data }
        (.inl rfl) (.inr rfl)
      rw [note_eq_accept, forwardHeld, emit_eq_accept, straight.cursor]
      exact hjoin
    rw [hspill]
    refine Answers.of_accept .overlong rfl (readOverlong_notice _ _) ?_
    rw [finish, turns_succ]
    simp only [turn, hcontrol, ite_false]
    exact answers_passThrough (t := accept { t with phase := .overlong } _) straight rfl byte
      hcontrol limit

-- The store of the sequence never wraps and always ends at its cursor, and what it holds suits
-- the phase. The capacity is the least that `ofConfig` gives out.
structure Sound (t : Terminal) : Prop where
  straight : t.held.Straight
  roomy : 8 ≤ t.held.capacity
  coherent : t.reader.Coherent t.held.capacity

theorem Sound.held_eq_nil (sound : t.Sound) (hphase : t.phase = .normal ∨ t.phase.inTitle) :
    t.heldBytes = [] := by
  have hcoherent := sound.coherent
  unfold Reader.Coherent reader at hcoherent
  cases h : t.phase <;> simp_all [Phase.inTitle]

theorem Sound.reader_ground (sound : t.Sound) (hphase : t.phase = .normal) :
    t.reader = .ground := by
  have hnil := sound.held_eq_nil (.inl hphase)
  rw [reader, hnil, hphase]
  rfl

-- An ESC in a title that no backslash follows has begun a sequence after all.
theorem Sound.answers_afterEscape (sound : t.Sound) (byte : UInt8)
    (hcontrol : byte ≠ Byte.carriageReturn ∧ byte ≠ Byte.backspace ∧ byte ≠ Byte.bel) :
    Answers t (Reader.readHeld t.held.capacity [Byte.escape] byte)
      (finish 2 byte (t.beginSequence.collect byte)) := by
  have hbegun : t.beginSequence.held.Straight :=
    sound.straight.clear.put Byte.escape t.held.capacity_pos
  have hheld : t.beginSequence.heldBytes = [Byte.escape] := by
    rw [heldBytes, hbegun.slices]
    exact ByteRing.toList_clear_put _ _
  have hcapacity : t.beginSequence.held.capacity = t.held.capacity :=
    ByteRing.capacity_put t.held.clear Byte.escape t.held.capacity_pos
  have hcollect := answers_collect hbegun rfl byte hcontrol 0
  rw [hheld, hcapacity] at hcollect
  exact hcollect.of_reading hcapacity

theorem Sound.answers_step (sound : t.Sound) (byte : UInt8) :
    Answers t (Reader.read t.held.capacity t.reader byte) (t.step byte) := by
  have straight := sound.straight
  have hreader : t.reader.phase = t.phase := rfl
  rw [step, turns_succ]
  unfold turn Reader.read
  rw [hreader]
  by_cases hreturn : byte = Byte.carriageReturn
  · rw [if_pos hreturn, if_pos hreturn, abandon_eq, forwardByte, emit_eq_accept,
      accept_accept _ _ _ (.inl rfl) (.inl rfl), List.map_append]
    exact answers_ground straight
      { shown := t.reader.withheld.map .data ++ [.data byte], edit := .returnCarriage }
  rw [if_neg hreturn, if_neg hreturn]
  by_cases hback : byte = Byte.backspace
  · rw [if_pos hback, if_pos hback]
    by_cases htitle : t.phase.inTitle
    · rw [if_pos htitle, if_pos htitle]
      exact answers_stay straight rfl
    · rw [if_neg htitle, if_neg htitle, forwardByte, emit_eq_accept]
      exact answers_same straight t.phase { shown := [.data byte], edit := .stepBack }
  rw [if_neg hback, if_neg hback]
  by_cases hbel : byte = Byte.bel
  · rw [if_pos hbel, if_pos hbel]
    by_cases htitle : t.phase.inTitle
    · rw [if_pos htitle, if_pos htitle]
      exact answers_rest straight (sound.held_eq_nil (.inr htitle)) .normal
    · rw [if_neg htitle, if_neg htitle, abandon_eq, forwardByte, emit_eq_accept,
        accept_accept _ _ _ (.inl rfl) (.inl rfl), List.map_append]
      exact answers_ground straight { shown := t.reader.withheld.map .data ++ [.data byte] }
  rw [if_neg hbel, if_neg hbel]
  have hcontrol := And.intro hreturn (And.intro hback hbel)
  cases hphase : t.phase with
  | normal =>
      have hnil := sound.held_eq_nil (.inl hphase)
      by_cases hescape : byte = Byte.escape
      · simp only [hescape, ite_true]
        have hopened := answers_opened straight {}
        rwa [accept_nothing] at hopened
      · simp only [hescape, ite_false, plain_eq]
        have hsame : ({ t with phase := .normal } : Terminal) = t := by rw [← hphase]
        have htext := answers_same straight .normal { shown := [.data byte], edit := .ofText byte }
        rwa [hnil, hsame] at htext
  | collecting => exact answers_collect straight hphase byte hcontrol 0
  | title sawEscape =>
      have hnil := sound.held_eq_nil (.inr (by rw [hphase]; rfl))
      cases sawEscape with
      | false =>
          by_cases hescape : byte = Byte.escape
          · simp only [hescape, ite_true]
            exact answers_rest straight hnil (.title true)
          · simp only [hescape, ite_false]
            exact answers_stay straight rfl
      | true =>
          by_cases hbackslash : byte = Byte.backslash
          · simp only [hbackslash, ite_true]
            exact answers_rest straight hnil .normal
          · simp only [hbackslash, ite_false]
            exact sound.answers_afterEscape byte hcontrol
  | overlong => exact answers_passThrough straight hphase byte hcontrol 1

end TerminalRelay.Terminal
