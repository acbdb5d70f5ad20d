import TerminalRelay.Proofs.Mirror.Reading
import TerminalRelay.Proofs.Terminal.Abreast
import TerminalRelay.Proofs.Terminal.Chunks
import TerminalRelay.Proofs.Terminal.Text
import TerminalRelay.Proofs.Writer.Partial

namespace TerminalRelay

namespace Reader

variable {capacity : Nat} {held : Bytes} {byte : UInt8}

-- What becomes of a byte that goes to the line: whatever was being read is given up, viewers are
-- shown what they were owed and the byte, and nothing goes on record.
structure TextRead (owed : Bytes) (byte : UInt8) (next : Reader × Report) : Prop where
  reader : next.1 = ground
  shown : next.2.shown = (owed ++ [byte]).map .data
  recorded : next.2.recorded = none

theorem textRead (byte : UInt8) : TextRead [] byte (readText byte) := ⟨rfl, rfl, rfl⟩

theorem textRead_overlong (hprintable : Byte.isPrintable byte = false)
    (hescape : byte ≠ Byte.escape) (held : Bytes) : TextRead [] byte (readOverlong held byte) := by
  rw [← Bool.not_eq_true, Sequence.isPrintable_iff_control, not_or] at hprintable
  rw [readOverlong, if_neg hprintable.1, if_neg hprintable.2, if_neg hescape]
  exact textRead byte

theorem textRead_held (hopen : Sequence.Open held) (hprintable : Byte.isPrintable byte = false)
    (hescape : byte ≠ Byte.escape) : TextRead held byte (readHeld capacity held byte) := by
  rw [readHeld, if_neg hescape]
  -- no sequence goes on with this byte, whether the store has room for it or not
  split
  · rw [(Sequence.scan_eq_aborted_iff hopen byte).mpr hprintable]
    exact ⟨rfl, rfl, rfl⟩
  · obtain ⟨hreader, hshown, hrecorded⟩ := textRead_overlong hprintable hescape held
    refine ⟨hreader, ?_, hrecorded⟩
    simp only [Report.join, hshown, List.nil_append, List.map_append]

theorem Coherent.textRead {reader : Reader} (hcoherent : reader.Coherent capacity)
    (hwrites : reader.phase.writes byte = true) :
    TextRead reader.pending byte (reader.read capacity byte) := by
  obtain ⟨phase, held⟩ := reader
  unfold Phase.writes at hwrites
  obtain ⟨hline, hphase⟩ := Bool.and_eq_true_iff.mp hwrites
  obtain ⟨hreturn, hbackspace, hbel, hescape⟩ := Byte.ordinary_of_isLineByte hline
  rw [Reader.read, if_neg hreturn, if_neg hbackspace, if_neg hbel]
  cases phase with
  | normal =>
      dsimp only
      rw [if_neg hescape]
      exact Reader.textRead byte
  | collecting => exact textRead_held hcoherent.1 (Bool.not_eq_true' _ ▸ hphase) hescape
  | title sawEscape =>
      cases sawEscape with
      | false => exact absurd hphase (by simp)
      | true =>
          have hprintable : Byte.isPrintable byte = false := Bool.not_eq_true' _ ▸ hphase
          have hbackslash : byte ≠ Byte.backslash := by
            rintro rfl
            exact absurd hprintable (by decide)
          dsimp only
          rw [if_neg hbackslash]
          exact textRead_held .escape hprintable hescape
  | overlong => exact textRead_overlong (Bool.not_eq_true' _ ▸ hphase) hescape held

end Reader

namespace Terminal

variable {config : Config} {t : Terminal} {before rest chunk : Bytes} {byte : UInt8}
  {error : SessionError}

theorem blames_endLine (h : t.endLine.error = some error) : error.target? = some .plainLog := by
  have hends := endsAs_endLine t
  generalize t.endLine = outcome at hends h
  cases hends with
  | unlogged hlog => exact absurd h (by simp)
  | logged hlog hdelivered => exact absurd h (by simp)
  | @refused log last failure hlog hdelivered =>
      cases h
      exact ((log.spends_deliverLine t.line).halts (by rw [hdelivered])).blames

-- There are two ways an edit can fail: the line is full under the cursor, or the log refuses it.
theorem error_edit {edit : Edit} (h : (t.edit edit).error = some error) :
    (∃ byte, edit = .put byte ∧ t.line.cursor = t.line.capacity ∧
      error = .lineTooLong t.line.capacity) ∨
    (edit = .endLine ∧ error.target? = some .plainLog) := by
  cases edit with
  | put byte =>
      rw [Terminal.edit, putLine] at h
      split at h
      · exact absurd h (by simp)
      · have hcursor := t.line.cursor_le
        have hsize := t.line.size_le
        refine .inl ⟨byte, rfl, ?_, (Option.some.inj h).symm⟩
        exact Nat.le_antisymm (Nat.le_trans hcursor hsize) (Nat.le_of_not_lt ‹_›)
  | endLine => exact .inr ⟨rfl, blames_endLine h⟩
  | keep => exact absurd h (by simp [Terminal.edit])
  | returnCarriage => exact absurd h (by simp [Terminal.edit])
  | stepBack => exact absurd h (by simp [Terminal.edit])
  | act action => exact absurd h (by simp [Terminal.edit])

-- The byte goes to the line, and the line is full where the cursor stands.
structure Overruns (t : Terminal) (byte : UInt8) : Prop where
  writes : t.phase.writes byte = true
  full : t.line.cursor = t.line.capacity

theorem Sound.step_overrun_iff (sound : t.Sound) (capacity : Nat) :
    (t.step byte).error = some (.lineTooLong capacity) ↔
      capacity = t.line.capacity ∧ t.Overruns byte := by
  have hput (written : UInt8) := sound.coherent.edit_eq_put byte written
  rw [(sound.settles byte).error]
  constructor
  · intro h
    rcases error_edit h with ⟨written, hedit, hfull, herror⟩ | ⟨-, htarget⟩
    · exact ⟨SessionError.lineTooLong.inj herror, ((hput written).mp hedit).1, hfull⟩
    · exact absurd htarget (by simp [SessionError.target?])
  · rintro ⟨rfl, hwrites, hfull⟩
    rw [(hput byte).mpr ⟨hwrites, rfl⟩, Terminal.edit, putLine, dif_neg (by omega)]

-- What a byte that goes to the line leaves, whether the line has room for it or not
structure TextStep (t : Terminal) (byte : UInt8) (outcome : Outcome Terminal) : Prop where
  error : outcome.error = (t.putLine byte).error
  page : outcome.state.SamePage (t.putLine byte).state
  reader : outcome.state.reader = .ground
  unhandled : outcome.state.unhandled = t.unhandled
  shown : outcome.state.viewers.items.toList = t.viewers.items.toList ++
    if t.forward then (t.reader.pending ++ [byte]).map .data else []
  ended : outcome.state.viewers.ended = t.viewers.ended

theorem Sound.textStep (sound : t.Sound) (hwrites : t.phase.writes byte = true) :
    t.TextStep byte (t.step byte) := by
  have hstep := sound.settles byte
  have hedit := (sound.coherent.edit_eq_put byte byte).mpr ⟨hwrites, rfl⟩
  obtain ⟨hreader, hshown, hrecorded⟩ := sound.coherent.textRead hwrites
  have herror := hstep.error
  have hpage := hstep.page
  rw [hedit] at herror hpage
  refine ⟨herror, hpage, hstep.reader.trans hreader, ?_, ?_, ?_⟩
  · rw [hstep.unhandled, accept, hrecorded]
    rfl
  · rw [hstep.viewers, accept, hshown]
    split <;> simp
  · rw [hstep.viewers, accept]
    split <;> rfl

-- The byte is in the line, over the one under the cursor or behind the last, and no other has
-- moved.
structure Writes (t : Terminal) (byte : UInt8) (outcome : Outcome Terminal) : Prop where
  error : outcome.error = none
  text : outcome.state.line.toList =
    t.line.toList.take t.line.cursor ++ byte :: t.line.toList.drop (t.line.cursor + 1)
  cursor : outcome.state.line.cursor = t.line.cursor + 1

theorem Sound.writes_step (sound : t.Sound) (hwrites : t.phase.writes byte = true)
    (room : t.line.cursor < t.line.capacity) : t.Writes byte (t.step byte) := by
  obtain ⟨herror, hpage, -, -, -, -⟩ := sound.textStep hwrites
  rw [putLine, dif_pos room] at herror hpage
  exact ⟨herror, hpage.line.content.trans (ByteRing.toList_put _ _ room), hpage.line.cursor⟩

-- A chunk goes wrong where one of its bytes does, and no byte is read after that.

theorem interpret_snoc (hdealt : (t.interpret before).error = none) (byte : UInt8) :
    t.interpret (before ++ [byte]) = (t.interpret before).state.step byte := by
  rw [interpret_append, Outcome.andThen_of_none hdealt, interpret_singleton]

theorem interpret_stopped (hstopped : (t.interpret before).error = some error) (rest : Bytes) :
    t.interpret (before ++ rest) = t.interpret before := by
  rw [interpret_append, Outcome.andThen_of_some hstopped]

theorem consumed_append (hdealt : (t.interpret before).error = none) (rest : Bytes) :
    t.consumed (before ++ rest) = before ++ (t.interpret before).state.consumed rest := by
  induction before generalizing t with
  | nil => rfl
  | cons first before ih =>
      rw [interpret] at hdealt
      rw [List.cons_append, consumed, interpret]
      generalize t.step first = outcome at hdealt ⊢
      obtain ⟨next, failure⟩ := outcome
      cases failure with
      | none => exact congrArg (first :: ·) (ih hdealt)
      | some failure => exact absurd hdealt (by simp)

theorem consumed_stopped (hstep : (t.step byte).error = some error) (rest : Bytes) :
    t.consumed (byte :: rest) = [byte] := by
  rw [consumed]
  generalize t.step byte = outcome at hstep ⊢
  obtain ⟨next, failure⟩ := outcome
  dsimp only at hstep
  rw [hstep]

theorem interpret_eq_some_iff : (t.interpret chunk).error = some error ↔
    ∃ before byte rest, chunk = before ++ byte :: rest ∧ (t.interpret before).error = none ∧
      ((t.interpret before).state.step byte).error = some error := by
  constructor
  · intro h
    induction chunk generalizing t with
    | nil => exact absurd h (by simp [interpret])
    | cons first chunk ih =>
        rw [interpret_cons] at h
        cases hfirst : (t.step first).error with
        | none =>
            rw [Outcome.andThen_of_none hfirst] at h
            obtain ⟨before, byte, rest, rfl, hdealt, hlast⟩ := ih h
            have hread : t.interpret (first :: before) = (t.step first).state.interpret before := by
              rw [interpret_cons, Outcome.andThen_of_none hfirst]
            refine ⟨first :: before, byte, rest, rfl, ?_, ?_⟩
            · rwa [hread]
            · rwa [hread]
        | some failure =>
            rw [Outcome.andThen_of_some hfirst] at h
            exact ⟨[], first, chunk, rfl, rfl, h⟩
  · rintro ⟨before, byte, rest, rfl, hdealt, hstep⟩
    rw [← interpret_snoc hdealt] at hstep
    rw [List.append_cons, interpret_stopped hstep, hstep]

theorem Sound.line_capacity_interpret (sound : t.Sound) (chunk : Bytes) :
    (t.interpret chunk).state.line.capacity = t.line.capacity := by
  obtain ⟨-, hpage⟩ := sound.interpret_editAll chunk
  exact hpage.line.capacity.trans (editAll_capacity _ _)

-- These bytes are dealt with, and the one behind them overruns the line.
structure OverrunsAfter (t : Terminal) (before : Bytes) (byte : UInt8) : Prop where
  dealt : (t.interpret before).error = none
  overruns : (t.interpret before).state.Overruns byte

theorem Sound.interpret_overrun_iff (sound : t.Sound) (chunk : Bytes) (capacity : Nat) :
    (t.interpret chunk).error = some (.lineTooLong capacity) ↔ capacity = t.line.capacity ∧
      ∃ before byte rest, chunk = before ++ byte :: rest ∧ t.OverrunsAfter before byte := by
  have hstep (before : Bytes) (byte : UInt8) :
      ((t.interpret before).state.step byte).error = some (.lineTooLong capacity) ↔
        capacity = (t.interpret before).state.line.capacity ∧
          (t.interpret before).state.Overruns byte :=
    (sound.reads_interpret before).sound.step_overrun_iff capacity
  simp only [sound.line_capacity_interpret] at hstep
  rw [interpret_eq_some_iff]
  simp only [hstep]
  constructor
  · rintro ⟨before, byte, rest, hchunk, hdealt, hcapacity, hoverruns⟩
    exact ⟨hcapacity, before, byte, rest, hchunk, hdealt, hoverruns⟩
  · rintro ⟨hcapacity, before, byte, rest, hchunk, hdealt, hoverruns⟩
    exact ⟨before, byte, rest, hchunk, hdealt, hcapacity, hoverruns⟩

-- Nothing else stops a chunk, but for a plain log.
theorem PlainLogWilling.error_interpret (hlog : t.PlainLogWilling) (sound : t.Sound)
    (h : (t.interpret chunk).error = some error) : error = .lineTooLong t.line.capacity := by
  obtain ⟨before, byte, rest, -, -, hstep⟩ := interpret_eq_some_iff.mp h
  have hread := (sound.reads_interpret before).sound
  have hwilling := hlog.interpret sound before
  rw [(hread.settles byte).error] at hstep
  rcases error_edit hstep with ⟨written, -, -, herror⟩ | ⟨hedit, -⟩
  · rw [herror, sound.line_capacity_interpret]
  · rw [hedit, Terminal.edit, hwilling.endLine.1] at hstep
    exact absurd hstep (by simp)

-- What a call leaves that was stopped by a byte for which there was no room: a terminal that reads
-- no sequence, and otherwise all that the bytes before it left. Viewers are shown these bytes and
-- that byte, and no newline behind them.
structure StopsAfter (t : Terminal) (before : Bytes) (byte : UInt8) (u : Terminal) : Prop where
  line : u.line.toList = (t.interpret before).state.line.toList
  cursor : u.line.cursor = (t.interpret before).state.line.cursor
  modes : u.modes = (t.interpret before).state.modes
  unhandled : u.unhandled = (t.interpret before).state.unhandled
  plainLog : u.plainLog = (t.interpret before).state.plainLog
  phase : u.phase = .normal
  held : u.heldBytes = []
  viewers : u.viewers.bytes = Transport.render
    ((t.interpret before).state.viewers.items.toList ++
      if t.forward then ((t.interpret before).state.reader.pending ++ [byte]).map .data else [])

theorem OverrunsAfter.stops (h : t.cleared.OverrunsAfter before byte) (sound : t.Sound)
    (rest : Bytes) : t.cleared.StopsAfter before byte (t.feed (before ++ byte :: rest)).state ∧
      t.cleared.consumed (before ++ byte :: rest) = before ++ [byte] := by
  obtain ⟨hdealt, hoverruns⟩ := h
  have hreads := sound.cleared.reads_interpret before
  have hstep := (hreads.sound.step_overrun_iff _).mpr ⟨rfl, hoverruns⟩
  have hstopped : (t.cleared.interpret (before ++ [byte])).error = some _ :=
    (congrArg Outcome.error (interpret_snoc hdealt byte)).trans hstep
  have hread : t.cleared.interpret (before ++ byte :: rest) =
      (t.cleared.interpret before).state.step byte := by
    rw [List.append_cons, interpret_stopped hstopped, interpret_snoc hdealt]
  obtain ⟨-, hpage, hreader, hunhandled, hshown, hended⟩ := hreads.sound.textStep hoverruns.writes
  have hfull : ¬ (t.cleared.interpret before).state.line.cursor <
      (t.cleared.interpret before).state.line.capacity := by
    rw [hoverruns.full]
    exact Nat.lt_irrefl _
  rw [putLine, dif_neg hfull] at hpage
  -- so the stream of this call is not ended
  have hfailed : (t.feed (before ++ byte :: rest)).error ≠ none := by
    intro hnone
    have := interpret_of_feed hnone
    rw [hread, hstep] at this
    exact absurd this (by simp)
  have hconsumed : t.cleared.consumed (before ++ byte :: rest) = before ++ [byte] := by
    rw [consumed_append hdealt, consumed_stopped hstep]
  refine ⟨?_, hconsumed⟩
  rw [feed_state, if_neg hfailed, hread]
  refine ⟨hpage.line.content, hpage.line.cursor, hpage.modes, hunhandled, hpage.plainLog,
    congrArg Reader.phase hreader, congrArg Reader.held hreader, ?_⟩
  have hopen : (t.cleared.interpret before).state.viewers.ended = false := hreads.ended
  have hforward : (t.cleared.interpret before).state.forward = t.cleared.forward := hreads.forward
  rw [hforward] at hshown
  simp only [ViewerStream.bytes, hshown, hended, hopen]
  exact List.append_nil _

-- A line overflows exactly where a byte of text comes and the cursor stands at the capacity. The
-- bytes before it are dealt with, it leaves no trace but the report and what viewers are shown, and
-- the bytes behind it are not read. A byte of text that finds room is written.
theorem feed_overflow (h : t.Reachable config) (chunk : Bytes) :
    let capacity := max config.lineCapacity 1
    (∀ told, (t.cleared.interpret chunk).error = some (.lineTooLong told) ↔ told = capacity ∧
      ∃ before byte rest, chunk = before ++ byte :: rest ∧ t.cleared.OverrunsAfter before byte) ∧
    (∀ before byte rest, chunk = before ++ byte :: rest → t.cleared.OverrunsAfter before byte →
      t.cleared.StopsAfter before byte (t.feed chunk).state ∧
      t.cleared.consumed chunk = before ++ [byte]) ∧
    (∀ before byte rest, chunk = before ++ byte :: rest →
      (t.cleared.interpret before).error = none →
      (t.cleared.interpret before).state.phase.writes byte = true →
      (t.cleared.interpret before).state.line.cursor ≠ capacity →
      (t.cleared.interpret before).state.Writes byte (t.cleared.interpret (before ++ [byte]))) ∧
    (t.PlainLogWilling → ∀ error, (t.cleared.interpret chunk).error = some error →
      error = .lineTooLong capacity) ∧
    (t.RawLogGentle → (t.feed chunk).error = (t.cleared.interpret chunk).error) := by
  intro capacity
  have sound := h.sound
  have hcapacity : t.cleared.line.capacity = capacity := h.line_capacity
  refine ⟨?_, ?_, ?_, ?_, fun hraw => (hraw.feed sound chunk).1⟩
  · intro told
    rw [sound.cleared.interpret_overrun_iff, hcapacity]
  · rintro before byte rest rfl hoverruns
    exact hoverruns.stops sound rest
  · rintro before byte rest - hdealt hwrites hne
    have hread := (sound.cleared.reads_interpret before).sound
    have hline := sound.cleared.line_capacity_interpret before
    have hcursor := (t.cleared.interpret before).state.line.cursor_le
    have hsize := (t.cleared.interpret before).state.line.size_le
    rw [interpret_snoc hdealt]
    refine hread.writes_step hwrites ?_
    unfold ByteRing.capacity at hline hcapacity ⊢
    omega
  · intro hlog error herror
    rw [← hcapacity]
    exact PlainLogWilling.error_interpret (t := t.cleared) hlog sound.cleared herror

-- A byte that gives up a sequence, behind a line that is full
theorem feed_overflow_abandoned :
    let t := ofConfig { lineCapacity := 2 }
    let chunk := [0x61, 0x62, 0x1b, 0x5b, 0xe9, 0x63]
    (t.feed chunk).error = some (.lineTooLong 2) ∧
    (t.feed chunk).state.line.toList = [0x61, 0x62] ∧ (t.feed chunk).state.phase = .normal ∧
    t.cleared.consumed chunk = [0x61, 0x62, 0x1b, 0x5b, 0xe9] := by
  intro t chunk
  have hsplit : chunk = [0x61, 0x62, 0x1b, 0x5b] ++ 0xe9 :: [0x63] := rfl
  have hoverruns : t.cleared.OverrunsAfter [0x61, 0x62, 0x1b, 0x5b] 0xe9 :=
    ⟨by decide +kernel, by decide +kernel, by decide +kernel⟩
  have hraw : t.RawLogGentle := by rintro log ⟨⟩
  obtain ⟨hiff, hstops, -, -, herror⟩ := feed_overflow (t := t) .start chunk
  obtain ⟨⟨hline, -, -, -, -, hphase, -, -⟩, hconsumed⟩ := hstops _ _ _ hsplit hoverruns
  have htext : (t.cleared.interpret [0x61, 0x62, 0x1b, 0x5b]).state.line.toList = [0x61, 0x62] := by
    decide +kernel
  exact ⟨(herror hraw).trans ((hiff 2).mpr ⟨rfl, _, _, _, hsplit, hoverruns⟩), hline.trans htext,
    hphase, hconsumed⟩

end Terminal

end TerminalRelay
