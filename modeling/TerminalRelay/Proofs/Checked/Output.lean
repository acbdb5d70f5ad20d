import TerminalRelay.Proofs.Byte
import TerminalRelay.Proofs.Checked.Terminal
import TerminalRelay.Proofs.Terminal.Edits
import TerminalRelay.Proofs.Terminal.Turns
import TerminalRelay.Proofs.Transport.RoundTrip

namespace TerminalRelay

namespace Checked

theorem encodeByte_eq (byte : UInt8) : encodeByte byte = .ok (Transport.encodeByte byte) := by
  revert byte
  apply Byte.forall_byte
  decide +kernel

theorem render_eq (items : List Transport.Item) : render items = .ok (Transport.render items) := by
  induction items with
  | nil => rfl
  | cons item rest ih =>
      have hitem : renderItem item = .ok item.render := by
        cases item with
        | data byte => exact encodeByte_eq byte
        | marker m => rfl
      rw [render, hitem, ih]
      rfl

theorem record_eq (history : History) (raw : Bytes) :
    record history raw = .ok (history.push raw) := by
  unfold record History.push
  by_cases hnone : history.capacity = 0
  · rw [if_pos hnone, if_pos hnone]
    rfl
  by_cases hroom : history.entries.length < history.capacity
  · rw [if_neg hnone, if_neg hnone, if_pos hroom, if_pos hroom]
    rfl
  · rw [if_neg hnone, if_neg hnone, if_neg hroom, if_neg hroom]
    cases hentries : history.entries with
    | nil =>
        rw [hentries, List.length_nil] at hroom
        omega
    | cons oldest kept => rfl

theorem writeLine_eq (log : Writer) (first second : Bytes) :
    writeLine log first second = .ok ((log.deliver .plainLog first).andThen fun log =>
      (log.deliver .plainLog second).andThen fun log =>
        log.deliver .plainLog [Byte.newline]) := by
  rw [writeLine, deliver_eq]
  apply onward_ok
  intro log
  rw [deliver_eq]
  apply onward_ok
  intro log
  exact deliver_eq log .plainLog [Byte.newline]

end Checked

theorem ViewerStream.bytes_end (stream : ViewerStream) (hended : stream.ended = false) :
    ViewerStream.bytes { stream with ended := true } = stream.bytes ++ [Byte.newline] := by
  simp [ViewerStream.bytes, hended]

theorem ViewerStream.bytes_append (stream : ViewerStream) (hended : stream.ended = false)
    (items : List Transport.Item) :
    ViewerStream.bytes { stream with items := stream.items.appendList items } =
      stream.bytes ++ Transport.render items := by
  simp [ViewerStream.bytes, hended, Transport.render]

namespace Terminal

def bare (t : Terminal) : BareTerminal where
  modes := t.modes
  line := t.line.bare
  held := t.held.bare
  phase := t.phase
  forward := t.forward
  unhandled := t.unhandled
  plainLog := t.plainLog
  rawLog := t.rawLog
  escaped := t.viewers.bytes
  notices := t.notices

-- Both rings could be had, and the stream to the viewers goes on.
structure Fits (t : Terminal) : Prop where
  line : t.line.Fits
  held : t.held.Fits
  unended : t.viewers.ended = false

variable {t : Terminal}

theorem Fits.emit_bare (fits : t.Fits) (items : List Transport.Item) :
    t.bare.emit items = .ok (t.emit items).bare := by
  unfold BareTerminal.emit emit
  have hforward : t.bare.forward = t.forward := rfl
  rw [hforward]
  cases t.forward with
  | false => rfl
  | true =>
      have hbytes := t.viewers.bytes_append fits.unended items
      rw [if_pos rfl, if_pos rfl, Checked.render_eq]
      simp only [bare, hbytes]
      rfl

theorem Fits.emit (fits : t.Fits) (items : List Transport.Item) : (t.emit items).Fits := by
  unfold Terminal.emit
  split
  · exact ⟨fits.line, fits.held, fits.unended⟩
  · exact fits

theorem Fits.forwardByte_bare (fits : t.Fits) (byte : UInt8) :
    t.bare.forwardByte byte = .ok (t.forwardByte byte).bare :=
  fits.emit_bare _

theorem Fits.heldBytes_bare (fits : t.Fits) : t.bare.heldBytes = .ok t.heldBytes := by
  have hslices : t.bare.held.slices = .ok t.held.slices := fits.held.slices_bare
  rw [BareTerminal.heldBytes, hslices]
  rfl

theorem Fits.forwardHeld_bare (fits : t.Fits) :
    t.bare.forwardHeld = .ok t.forwardHeld.bare := by
  rw [BareTerminal.forwardHeld, fits.heldBytes_bare]
  exact fits.emit_bare _

theorem Fits.toNormal (fits : t.Fits) : t.toNormal.Fits :=
  ⟨fits.line, fits.held, fits.unended⟩

theorem Fits.abandon_bare (fits : t.Fits) : t.bare.abandon = .ok t.abandon.bare := by
  unfold BareTerminal.abandon abandon
  have hphase : t.bare.phase = t.phase := rfl
  rw [hphase, fits.forwardHeld_bare]
  split <;> rfl

theorem Fits.abandon (fits : t.Fits) : t.abandon.Fits := by
  unfold Terminal.abandon
  split
  · exact (fits.emit _).toNormal
  · exact fits.toNormal

theorem Fits.beginSequence_bare (fits : t.Fits) :
    t.bare.beginSequence = .ok t.beginSequence.bare := by
  have hclear : t.held.clear.Fits := fits.held
  have hput : t.bare.held.clear.put? Byte.escape =
      .ok (some (t.held.clear.put Byte.escape t.held.capacity_pos).bare) := by
    have hroom : t.held.clear.cursor < t.held.clear.capacity := t.held.capacity_pos
    have hput := hclear.put_bare Byte.escape
    rwa [dif_pos hroom] at hput
  rw [BareTerminal.beginSequence, hput]
  rfl

theorem Fits.beginSequence (fits : t.Fits) : t.beginSequence.Fits := by
  have hclear : t.held.clear.Fits := fits.held
  exact ⟨fits.line, hclear.put Byte.escape t.held.capacity_pos, fits.unended⟩

theorem Fits.recordHeld_bare (fits : t.Fits) : t.bare.recordHeld = .ok t.recordHeld.bare := by
  rw [BareTerminal.recordHeld, fits.heldBytes_bare]
  simp only [Checked.record_eq, bind, Except.bind]
  rfl

theorem Fits.putLine_bare (fits : t.Fits) (byte : UInt8) :
    t.bare.putLine byte = .ok ((t.putLine byte).map bare) := by
  have hput : t.bare.line.put? byte = _ := fits.line.put_bare byte
  rw [BareTerminal.putLine, hput, putLine]
  by_cases room : t.line.cursor < t.line.capacity
  · rw [dif_pos room, dif_pos room]
    rfl
  · rw [dif_neg room, dif_neg room]
    rfl

theorem Fits.endLine_bare (fits : t.Fits) : t.bare.endLine = .ok (t.endLine.map bare) := by
  have hmoved : (t.line.moveTo t.line.size).Fits := fits.line
  have hline : t.bare.line.moveTo t.bare.line.size = (t.line.moveTo t.line.size).bare := rfl
  have hlog : t.bare.plainLog = t.plainLog := rfl
  unfold BareTerminal.endLine endLine
  rw [hline]
  simp only [hlog]
  cases t.plainLog with
  | none =>
      simp only [hmoved.clearOnward_bare, bind, Except.bind]
      rfl
  | some log =>
      simp only [hmoved.clearOnward_bare, hmoved.slices_bare, Checked.writeLine_eq, bind,
        Except.bind]
      generalize (log.deliver .plainLog (t.line.moveTo t.line.size).slices.1).andThen _ = written
      obtain ⟨log', error⟩ := written
      cases error with
      | none => rfl
      | some error => rfl

theorem Fits.plain_bare (fits : t.Fits) (byte : UInt8) :
    t.bare.plain byte = .ok ((t.plain byte).map bare) := by
  have hfits : (t.forwardByte byte).Fits := fits.emit _
  unfold BareTerminal.plain plain
  simp only [fits.forwardByte_bare, bind, Except.bind]
  split
  · exact hfits.endLine_bare
  split
  · exact hfits.putLine_bare byte
  · rfl

theorem rowStart_bare (window : Option WindowSize) {position : Nat}
    (h : position < Checked.sizeLimit) :
    BareTerminal.rowStart window position = .ok (rowStart window position) := by
  unfold BareTerminal.rowStart rowStart
  cases window with
  | none => rfl
  | some size =>
      dsimp only
      split
      · have hcols : 0 < size.cols := ‹_›
        have hle := Nat.div_mul_le_self position size.cols
        have hmul : Checked.mul Checked.sizeLimit (position / size.cols) size.cols =
            .ok (position / size.cols * size.cols) := Checked.mul_of_lt (by omega)
        rw [Checked.div_of_pos hcols]
        exact hmul
      · rfl

theorem Fits.cursor_lt (fits : t.Fits) : t.line.cursor < Checked.sizeLimit := by
  have hcursor := t.line.cursor_le
  have hsize := t.line.size_le_capacity
  have hfits : t.line.capacity < 2 ^ 63 := fits.line
  unfold Checked.sizeLimit
  omega

theorem Fits.returnCarriage_bare (fits : t.Fits) :
    t.bare.returnCarriage = .ok t.returnCarriage.bare := by
  have hrow : BareTerminal.rowStart t.bare.modes.window t.bare.line.cursor = _ :=
    rowStart_bare t.modes.window fits.cursor_lt
  rw [BareTerminal.returnCarriage, hrow]
  rfl

theorem stepBack_bare : t.bare.stepBack = .ok t.stepBack.bare := by
  unfold BareTerminal.stepBack stepBack
  have hcursor : t.bare.line.cursor = t.line.cursor := rfl
  rw [hcursor]
  by_cases hpos : 0 < t.line.cursor
  · rw [if_pos hpos, Checked.sub_of_le hpos]
    rfl
  · have hstay : t.line.cursor - 1 = t.line.cursor := by omega
    rw [if_neg hpos, hstay, ByteRing.moveTo_cursor]
    rfl

theorem Fits.cursorUp_bare (fits : t.Fits) (count : Nat) :
    t.bare.cursorUp count = (t.cursorUp count).bare := by
  have hcursor := fits.cursor_lt
  unfold BareTerminal.cursorUp cursorUp
  have hmodes : t.bare.modes = t.modes := rfl
  rw [hmodes]
  cases t.modes.window with
  | none => rfl
  | some size =>
      have hback : t.bare.line.cursor - min (count * size.cols) (Checked.sizeLimit - 1) =
          t.line.cursor - count * size.cols := by
        change t.line.cursor - _ = _
        omega
      dsimp only
      rw [hback]
      rfl

theorem Fits.cursorForward_bare (fits : t.Fits) (count : Nat) :
    t.bare.cursorForward count = .ok (t.cursorForward count).bare := by
  have hsize := t.line.size_le_capacity
  have hput : t.bare.line.put? Byte.space = _ := fits.line.put_bare Byte.space
  have hcursor : t.bare.line.cursor = t.line.cursor := rfl
  have hstop : t.bare.line.size = t.line.size := rfl
  rw [BareTerminal.cursorForward, cursorForward, hcursor, hstop, hput]
  by_cases hinside : t.line.cursor < t.line.size
  · have hsub := Checked.sub_of_le (Nat.le_of_lt hinside)
    have hadd : Checked.add Checked.sizeLimit t.line.cursor
        (min count (t.line.size - t.line.cursor)) =
          .ok (t.line.cursor + min count (t.line.size - t.line.cursor)) :=
      fits.line.add (by omega) (by omega)
    have hmoved : t.line.moveTo (t.line.cursor + min count (t.line.size - t.line.cursor)) =
        t.line.moveTo (t.line.cursor + count) := by
      have hleast : min (t.line.cursor + min count (t.line.size - t.line.cursor)) t.line.size =
          min (t.line.cursor + count) t.line.size := by
        omega
      simp only [ByteRing.moveTo, hleast]
    rw [if_pos hinside, if_pos hinside]
    simp only [hsub, hadd, bind, Except.bind]
    rw [← hmoved]
    rfl
  · rw [if_neg hinside, if_neg hinside]
    by_cases room : t.line.cursor < t.line.capacity
    · rw [dif_pos room, dif_pos room]
      rfl
    · rw [dif_neg room, dif_neg room]
      rfl

theorem Fits.deleteChars_bare (fits : t.Fits) (count : Nat) :
    t.bare.deleteChars count = .ok (t.deleteChars count).bare := by
  have hsub : Checked.sub t.bare.line.size t.bare.line.cursor =
      .ok (t.line.size - t.line.cursor) := Checked.sub_of_le t.line.cursor_le
  have hremove : t.bare.line.remove t.bare.line.cursor count =
      .ok (t.line.remove t.line.cursor count).bare := fits.line.remove_bare _ _
  rw [BareTerminal.deleteChars, deleteChars]
  simp only [hsub, hremove, bind, Except.bind]
  split <;> rfl

theorem Fits.apply_bare (fits : t.Fits) (action : Action) :
    t.bare.apply action = .ok (t.apply action).bare := by
  cases action with
  | eraseToEnd =>
      have htruncate : t.bare.line.truncate t.bare.line.cursor =
          (t.line.truncate t.line.cursor).bare := ByteRing.bare_truncate _
      rw [BareTerminal.apply, htruncate]
      rfl
  | cursorUp count =>
      rw [BareTerminal.apply, fits.cursorUp_bare]
      rfl
  | cursorForward count => exact fits.cursorForward_bare count
  | deleteChars count => exact fits.deleteChars_bare count
  | appCursor on => rfl
  | altScreen mode on => rfl

theorem Fits.edit (fits : t.Fits) (edit : Edit) : (t.edit edit).state.Fits := by
  have hcapacity := t.edit_capacity edit
  obtain ⟨modes, line, plainLog, notices, hframe⟩ := t.edit_frame edit
  rw [hframe] at hcapacity ⊢
  have hline : line.Fits := by
    have hfits : t.line.capacity < 2 ^ 63 := fits.line
    unfold ByteRing.Fits
    dsimp only at hcapacity
    omega
  exact ⟨hline, fits.held, fits.unended⟩

theorem Fits.apply (fits : t.Fits) (action : Action) : (t.apply action).Fits :=
  fits.edit (.act action)

theorem Fits.showAction_bare (fits : t.Fits) (action : Action) :
    t.bare.showAction action = .ok (t.showAction action).bare := by
  cases action with
  | altScreen mode on => exact fits.emit_bare _
  | eraseToEnd => exact fits.forwardHeld_bare
  | cursorUp count => exact fits.forwardHeld_bare
  | cursorForward count => exact fits.forwardHeld_bare
  | deleteChars count => exact fits.forwardHeld_bare
  | appCursor on => exact fits.forwardHeld_bare

end Terminal

def Turn.bare : Turn → BareTurn
  | settled outcome => .settled (outcome.map Terminal.bare)
  | again t => .again t.bare

namespace Terminal

variable {t : Terminal}

theorem Fits.note (fits : t.Fits) (notice : Notice) : (t.note notice).Fits :=
  ⟨fits.line, fits.held, fits.unended⟩

theorem Fits.recordHeld (fits : t.Fits) : t.recordHeld.Fits :=
  ⟨fits.line, fits.held, fits.unended⟩

theorem Fits.complete_bare (fits : t.Fits) (hheld : 0 < t.held.size) (byte : UInt8) (scan : Scan) :
    t.bare.complete byte scan = .ok (t.complete byte scan).bare := by
  cases scan with
  | pending => rfl
  | title => rfl
  | known action =>
      simp only [BareTerminal.complete, fits.apply_bare, (fits.apply action).showAction_bare, bind,
        Except.bind]
      rfl
  | unknown =>
      have hnoted := fits.note (.unhandledSequence t.heldBytes)
      have hnote : t.bare.note (.unhandledSequence t.heldBytes) =
          (t.note (.unhandledSequence t.heldBytes)).bare := rfl
      simp only [BareTerminal.complete, complete, fits.heldBytes_bare, bind, Except.bind]
      split
      · rw [fits.abandon_bare]
        rfl
      · rw [hnote]
        simp only [hnoted.recordHeld_bare, hnoted.recordHeld.abandon_bare]
        rfl
  | aborted =>
      have hsub : Checked.sub t.bare.held.size 1 = .ok (t.held.size - 1) :=
        Checked.sub_of_le hheld
      have hfits : ({ t with held := t.held.truncate (t.held.size - 1) } : Terminal).Fits :=
        ⟨fits.line, fits.held, fits.unended⟩
      have hbare : { t.bare with held := t.bare.held.truncate (t.held.size - 1) } =
          ({ t with held := t.held.truncate (t.held.size - 1) } : Terminal).bare := by
        have htruncate : t.bare.held.truncate (t.held.size - 1) =
            (t.held.truncate (t.held.size - 1)).bare := ByteRing.bare_truncate _
        rw [htruncate]
        rfl
      simp only [BareTerminal.complete, hsub, bind, Except.bind]
      rw [hbare]
      simp only [hfits.abandon_bare, hfits.abandon.plain_bare]
      rfl

theorem Fits.collect_bare (fits : t.Fits) (byte : UInt8) :
    t.bare.collect byte = .ok (t.collect byte).bare := by
  have hput : t.bare.held.put? byte = _ := fits.held.put_bare byte
  rw [BareTerminal.collect, collect, hput]
  by_cases hescape : byte = Byte.escape
  · rw [if_pos hescape, if_pos hescape]
    simp only [fits.abandon_bare, fits.abandon.beginSequence_bare, bind, Except.bind]
    rfl
  rw [if_neg hescape, if_neg hescape]
  by_cases room : t.held.cursor < t.held.capacity
  · have hfits : ({ t with held := t.held.put byte room } : Terminal).Fits :=
      ⟨fits.line, fits.held.put byte room, fits.unended⟩
    have hheld : 0 < (t.held.put byte room).size := by
      simp only [ByteRing.put]
      omega
    have hbare : { t.bare with held := (t.held.put byte room).bare } =
        ({ t with held := t.held.put byte room } : Terminal).bare := rfl
    rw [dif_pos room, dif_pos room]
    simp only [hbare, hfits.heldBytes_bare, hfits.complete_bare hheld, bind, Except.bind]
  · have hnoted := fits.note (.sequenceTooLong t.held.size)
    have hnote : t.bare.note (.sequenceTooLong t.bare.held.size) =
        (t.note (.sequenceTooLong t.held.size)).bare := rfl
    rw [dif_neg room, dif_neg room]
    simp only [hnote, hnoted.forwardHeld_bare, bind, Except.bind]
    rfl

theorem Fits.passThrough_bare (fits : t.Fits) (byte : UInt8) :
    t.bare.passThrough byte = .ok (t.passThrough byte).bare := by
  have hshown : (t.forwardByte byte).Fits := fits.emit _
  unfold BareTerminal.passThrough passThrough
  simp only [fits.forwardByte_bare, bind, Except.bind]
  split
  · rfl
  split
  · split
    · rfl
    · rw [hshown.recordHeld_bare]
      rfl
  · rfl

theorem Fits.turn_bare (fits : t.Fits) (byte : UInt8) :
    t.bare.turn byte = .ok (t.turn byte).bare := by
  have hphase : t.bare.phase = t.phase := rfl
  unfold BareTerminal.turn turn
  rw [hphase]
  split
  · have hshown : (t.abandon.forwardByte byte).Fits := fits.abandon.emit _
    simp only [fits.abandon_bare, fits.abandon.forwardByte_bare, hshown.returnCarriage_bare, bind,
      Except.bind]
    rfl
  split
  · split
    · rfl
    · simp only [fits.forwardByte_bare, stepBack_bare, bind, Except.bind]
      rfl
  split
  · split
    · rfl
    · simp only [fits.abandon_bare, fits.abandon.forwardByte_bare, bind, Except.bind]
      rfl
  cases t.phase with
  | normal =>
      dsimp only
      split
      · rw [fits.beginSequence_bare]
        rfl
      · rw [fits.plain_bare]
        rfl
  | collecting => exact fits.collect_bare byte
  | title sawEscape =>
      cases sawEscape with
      | false =>
          dsimp only
          split <;> rfl
      | true =>
          dsimp only
          split
          · rfl
          · rw [fits.beginSequence_bare]
            exact fits.beginSequence.collect_bare byte
  | overlong => exact fits.passThrough_bare byte

variable {next : Terminal}

theorem Fits.outgrow (fits : t.Fits) : t.outgrow.Fits := by
  have hshown := (fits.note (.sequenceTooLong t.held.size)).emit (t.heldBytes.map .data)
  exact ⟨hshown.line, hshown.held, hshown.unended⟩

theorem Fits.again (fits : t.Fits) {byte : UInt8} (h : t.turn byte = .again next) :
    next.Fits ∧ next.phase.rereads < t.phase.rereads := by
  have hpasses := turn_eq_again h
  refine ⟨?_, hpasses.rereads⟩
  cases hpasses with
  | outgrown hphase hfull => exact fits.outgrow
  | outgrownTitle hphase hfull => exact fits.beginSequence.outgrow
  | ended hphase => exact fits.toNormal

-- A byte is read again in phases that allow it less and less often, so that turns suffice.
theorem Fits.turns_bare (fits : t.Fits) {limit : Nat} (hlimit : t.phase.rereads < limit)
    (byte : UInt8) : t.bare.turns limit byte = .ok ((turns limit t byte).map bare) := by
  induction limit generalizing t with
  | zero => omega
  | succ limit ih =>
      rw [BareTerminal.turns, turns, fits.turn_bare]
      cases hturn : t.turn byte with
      | settled outcome => rfl
      | again next =>
          obtain ⟨hfits, hless⟩ := fits.again hturn
          exact ih hfits (by omega)

theorem Fits.step_bare (fits : t.Fits) (byte : UInt8) :
    t.bare.step byte = .ok ((t.step byte).map bare) := by
  apply fits.turns_bare
  cases t.phase with
  | title sawEscape => cases sawEscape <;> decide
  | normal => decide
  | collecting => decide
  | overlong => decide

theorem Fits.step (fits : t.Fits) (sound : t.Sound) (byte : UInt8) :
    (t.step byte).state.Fits := by
  have hstep := sound.settles byte
  have hfits := fits.edit (t.reader.read t.held.capacity byte).2.edit
  refine ⟨?_, ?_, ?_⟩
  · have hline := hstep.page.line.capacity
    unfold ByteRing.Fits
    rw [hline]
    exact hfits.line
  · unfold ByteRing.Fits
    rw [hstep.capacity]
    exact fits.held
  · have hunended := fits.unended
    rw [hstep.viewers, accept]
    split <;> exact hunended

theorem Fits.interpret_bare (fits : t.Fits) (sound : t.Sound) (chunk : Bytes) :
    t.bare.interpret chunk = .ok ((t.interpret chunk).map bare) := by
  induction chunk generalizing t with
  | nil => rfl
  | cons byte rest ih =>
      have hfits := fits.step sound byte
      have hsound := sound.step byte
      rw [BareTerminal.interpret, interpret, fits.step_bare]
      generalize t.step byte = outcome at hfits hsound
      obtain ⟨next, error⟩ := outcome
      cases error with
      | none => exact ih hfits hsound
      | some error => rfl

theorem logRaw_bare (t : Terminal) (chunk : Bytes) :
    t.bare.logRaw chunk = .ok ((t.logRaw chunk).map bare) := by
  have hlog : t.bare.rawLog = t.rawLog := rfl
  unfold BareTerminal.logRaw logRaw
  rw [hlog]
  cases t.rawLog with
  | none => rfl
  | some log =>
      simp only [Checked.deliver_eq, bind, Except.bind]
      rfl

theorem Sound.feed_bare (sound : t.Sound) (hline : t.line.Fits) (hheld : t.held.Fits)
    (chunk : Bytes) :
    t.bare.feed chunk = .ok ((t.feed chunk).map bare) := by
  have hcleared : { t.bare with escaped := [], notices := #[] } = t.cleared.bare := rfl
  have hfits : t.cleared.Fits := ⟨hline, hheld, rfl⟩
  have hunended := (sound.cleared.reads_interpret chunk).ended
  have hinterpret := hfits.interpret_bare sound.cleared chunk
  have hframe := logRaw_frame (t.cleared.interpret chunk).state chunk
  rw [BareTerminal.feed, hcleared, hinterpret, feed_eq]
  generalize t.cleared.interpret chunk = interpreted at hunended hframe
  have hlogged := logRaw_bare interpreted.state chunk
  have hunended' : (interpreted.state.logRaw chunk).state.viewers.ended = false := by
    rw [hframe]
    exact hunended
  have hstate : (interpreted.map bare).state = interpreted.state.bare := rfl
  simp only [hstate, hlogged, bind, Except.bind]
  generalize interpreted.state.logRaw chunk = logged at hunended'
  have herror : (logged.map bare).error.or (interpreted.map bare).error =
      logged.error.or interpreted.error := rfl
  unfold conclude
  rw [herror]
  cases logged.error.or interpreted.error with
  | some error => rfl
  | none =>
      obtain ⟨⟨modes, line, held, phase, forward, unhandled, plainLog, rawLog, viewers, notices⟩,
        error⟩ := logged
      obtain ⟨items, ended⟩ := viewers
      dsimp only at hunended'
      subst hunended'
      cases forward with
      | true =>
          have hbytes := ViewerStream.bytes_end ⟨items, false⟩ rfl
          simp only [Outcome.map, bare, hbytes]
          rfl
      | false => rfl

end Terminal

end TerminalRelay
