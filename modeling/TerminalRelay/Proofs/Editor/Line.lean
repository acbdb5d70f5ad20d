import TerminalRelay.Proofs.Editor.Reading
import TerminalRelay.Proofs.Terminal.Chunks
import TerminalRelay.Proofs.Writer.Gentle

namespace TerminalRelay.Terminal

-- What a terminal shows of an editor: the line without the ring it is in, and the text of the log
def editor (t : Terminal) : Editor where
  text := t.line.toList
  cursor := t.line.cursor
  altScreen := t.modes.altScreen
  appCursor := t.modes.appCursor
  log := t.plainLog.elim [] Writer.contents

-- There is a plain log, and it takes all that it is offered.
def PlainLogGentle (t : Terminal) : Prop :=
  ∃ log, t.plainLog = some log ∧ log.Gentle

theorem rowStart_eq (window : Option WindowSize) (position : Nat) :
    rowStart window position = Editor.rowStart window position := by
  cases window with
  | none => rfl
  | some size =>
      have hdiv := Nat.div_add_mod' position size.cols
      simp only [rowStart, Editor.rowStart]
      by_cases hcols : 0 < size.cols
      · rw [if_pos hcols]
        omega
      · have hzero : size.cols = 0 := by omega
        simp [hzero]

theorem rowStart_le (window : Option WindowSize) (position : Nat) :
    Editor.rowStart window position ≤ position := by
  cases window with
  | none => exact Nat.zero_le _
  | some size => exact Nat.sub_le _ _

theorem editor_moveTo (t : Terminal) (position : Nat) (h : position ≤ t.line.size) :
    ({ t with line := t.line.moveTo position } : Terminal).editor =
      { t.editor with cursor := position } := by
  have hmin : min position t.line.size = position := Nat.min_eq_left h
  simp [editor, ByteRing.moveTo, hmin, ByteRing.toList, ByteRing.slices, ByteRing.capacity]

-- The two slices that the log is offered are the text of the line.
theorem PlainLogGentle.endLine {t : Terminal} (hlog : t.PlainLogGentle) :
    t.endLine.error = none ∧ t.endLine.state.PlainLogGentle ∧
    t.endLine.state.modes = t.modes ∧
    t.endLine.state.editor = { t.editor with
      text := [], cursor := 0, log := t.editor.log ++ t.editor.text ++ [Byte.newline] } := by
  obtain ⟨log, hsome, hgentle⟩ := hlog
  have haccepts := hgentle.accepts_deliverLine t.line
  have hends := endsAs_endLine t
  generalize t.endLine = outcome at hends ⊢
  cases hends with
  | unlogged hnone => exact absurd (hnone.symm.trans hsome) (by simp)
  | logged hlog hdelivered =>
      obtain rfl := Option.some.inj (hlog.symm.trans hsome)
      rw [hdelivered] at haccepts
      refine ⟨rfl, ⟨_, rfl, haccepts.gentle⟩, rfl, ?_⟩
      have htext : ((t.line.moveTo t.line.size).clearOnward).toList = [] :=
        ByteRing.toList_clearOnward _
      have hcontents := haccepts.contents
      dsimp only at hcontents
      simp only [editor, htext, hsome, Option.elim_some, hcontents, List.append_assoc]
      rfl
  | refused hlog hdelivered =>
      obtain rfl := Option.some.inj (hlog.symm.trans hsome)
      rw [hdelivered] at haccepts
      exact absurd haccepts.error (by simp)

-- An outcome without error that shows this editor, and in which the next piece of output meets the
-- same window, the same capacity and a log as willing as before
structure Follows (t : Terminal) (e : Editor) (outcome : Outcome Terminal) : Prop where
  error : outcome.error = none
  editor : outcome.state.editor = e
  log : outcome.state.PlainLogGentle
  window : outcome.state.modes.window = t.modes.window
  capacity : outcome.state.line.capacity = t.line.capacity

theorem PlainLogGentle.cursorForward {t : Terminal} (hlog : t.PlainLogGentle) (digits : Bytes) :
    t.Follows (t.editor.apply t.line.capacity t.modes.window (.cursorForward digits))
      ⟨t.cursorForward (Sequence.count digits), none⟩ := by
  have hsize := t.line.length_toList
  have hcursor := t.line.cursor_le
  unfold Terminal.cursorForward
  by_cases hinside : t.line.cursor < t.line.size
  · rw [if_pos hinside]
    refine ⟨rfl, ?_, hlog, rfl, rfl⟩
    have hlength : t.editor.cursor < t.editor.text.length := hsize ▸ hinside
    simp only [Editor.apply, if_pos hlength]
    simp only [editor, hsize]
    rfl
  · have hlength : ¬ t.editor.cursor < t.editor.text.length := fun h => hinside (hsize ▸ h)
    rw [if_neg hinside]
    by_cases room : t.line.cursor < t.line.capacity
    · rw [dif_pos room]
      refine ⟨rfl, ?_, hlog, rfl, ByteRing.capacity_put _ _ room⟩
      have hroom : t.editor.cursor < t.line.capacity := room
      simp only [Editor.apply, if_neg hlength, if_pos hroom]
      simp only [editor, ByteRing.toList_put_end t.line Byte.space room (by omega)]
      rfl
    · rw [dif_neg room]
      refine ⟨rfl, ?_, hlog, rfl, rfl⟩
      have hroom : ¬ t.editor.cursor < t.line.capacity := room
      simp only [Editor.apply, if_neg hlength, if_neg hroom]
      rfl

theorem PlainLogGentle.deleteChars {t : Terminal} (hlog : t.PlainLogGentle) (digits : Bytes) :
    t.Follows (t.editor.apply t.line.capacity t.modes.window (.deleteChars digits))
      ⟨t.deleteChars (Sequence.count digits), none⟩ := by
  have hsize := t.line.length_toList
  unfold Terminal.deleteChars
  by_cases hcount : Sequence.count digits < t.line.size - t.line.cursor
  · rw [if_pos hcount]
    refine ⟨rfl, ?_, hlog, rfl, ByteRing.capacity_remove _ _ _⟩
    have hlength : Sequence.count digits < t.editor.text.length - t.editor.cursor := hsize ▸ hcount
    have hcursor : (t.line.remove t.line.cursor (Sequence.count digits)).cursor =
        t.line.cursor := by
      rw [ByteRing.remove_cursor]
      omega
    simp only [Editor.apply, if_pos hlength]
    simp only [editor, ByteRing.toList_remove, hcursor]
  · rw [if_neg hcount]
    refine ⟨rfl, ?_, hlog, rfl, rfl⟩
    have hlength : ¬ Sequence.count digits < t.editor.text.length - t.editor.cursor :=
      fun h => hcount (hsize ▸ h)
    simp only [Editor.apply, if_neg hlength]
    rfl

theorem PlainLogGentle.follows_token {t : Terminal} (hlog : t.PlainLogGentle) (token : Editor.Token)
    (hroom : token.isText = true → t.line.cursor < t.line.capacity) :
    t.Follows (t.editor.apply t.line.capacity t.modes.window token) (t.editAll token.edits) := by
  have hcursor := t.line.cursor_le
  cases token with
  | text byte =>
      have room := hroom rfl
      have hedit : t.editAll (Editor.Token.text byte).edits =
          ⟨{ t with line := t.line.put byte room }, none⟩ := by
        simp only [Editor.Token.edits, editAll, edit, putLine, dif_pos room]
        rfl
      rw [hedit]
      refine ⟨rfl, ?_, hlog, rfl, ByteRing.capacity_put _ _ room⟩
      simp only [editor, ByteRing.toList_put, Editor.apply]
      rfl
  | newline =>
      obtain ⟨herror, hgentle, hmodes, heditor⟩ := hlog.endLine
      have hedit : t.editAll Editor.Token.newline.edits = t.endLine := by
        simp only [Editor.Token.edits, editAll, edit]
        generalize t.endLine = outcome at herror
        obtain ⟨next, error⟩ := outcome
        dsimp only at herror
        subst herror
        rfl
      have hcapacity := editAll_capacity t Editor.Token.newline.edits
      rw [hedit] at hcapacity ⊢
      exact ⟨herror, heditor, hgentle, congrArg Modes.window hmodes, hcapacity⟩
  | carriageReturn =>
      refine ⟨rfl, ?_, hlog, rfl, rfl⟩
      have hle := rowStart_le t.modes.window t.line.cursor
      refine (editor_moveTo t _ ?_).trans ?_
      · rw [rowStart_eq]
        omega
      · rw [rowStart_eq]
        rfl
  | backspace => exact ⟨rfl, editor_moveTo t _ (by omega), hlog, rfl, rfl⟩
  | eraseToEnd zero =>
      refine ⟨rfl, ?_, hlog, rfl, rfl⟩
      have hkept : min t.line.cursor t.line.cursor = t.line.cursor := Nat.min_self _
      simp only [Editor.Token.edits, editAll, edit, Outcome.andThen, Terminal.apply, editor,
        ByteRing.toList_truncate, Editor.apply]
      simp only [ByteRing.truncate, hkept]
  | cursorUp digits =>
      have hedit : t.editAll (Editor.Token.cursorUp digits).edits =
          ⟨t.cursorUp (Sequence.count digits), none⟩ := rfl
      rw [hedit, cursorUp]
      simp only [Editor.apply]
      cases t.modes.window with
      | none => exact ⟨rfl, rfl, hlog, rfl, rfl⟩
      | some size => exact ⟨rfl, editor_moveTo t _ (by omega), hlog, rfl, rfl⟩
  | cursorForward digits => exact hlog.cursorForward digits
  | deleteChars digits => exact hlog.deleteChars digits
  | privateMode digits on =>
      have hedit : t.editAll (Editor.Token.privateMode digits on).edits =
          ⟨t.apply (Sequence.modeAction digits on), none⟩ := rfl
      rw [hedit]
      simp only [Editor.apply, Sequence.modeAction]
      split <;> exact ⟨rfl, rfl, hlog, rfl, rfl⟩
  | control byte => exact ⟨rfl, rfl, hlog, rfl, rfl⟩
  | otherControl body final => exact ⟨rfl, rfl, hlog, rfl, rfl⟩
  | otherEscape intermediates final => exact ⟨rfl, rfl, hlog, rfl, rfl⟩

theorem PlainLogGentle.follows_tokens {t : Terminal} (hlog : t.PlainLogGentle)
    (tokens : List Editor.Token)
    (hfits : Editor.Fits t.line.capacity t.modes.window t.editor tokens) :
    t.Follows (t.editor.applyAll t.line.capacity t.modes.window tokens)
      (t.editAll (tokens.flatMap Editor.Token.edits)) := by
  induction tokens generalizing t with
  | nil => exact ⟨rfl, rfl, hlog, rfl, rfl⟩
  | cons token rest ih =>
      obtain ⟨hroom, hrest⟩ := hfits
      obtain ⟨herror, heditor, hlog', hwindow, hcapacity⟩ := hlog.follows_token token hroom
      rw [List.flatMap_cons, editAll_append]
      generalize t.editAll token.edits = outcome at *
      obtain ⟨next, error⟩ := outcome
      dsimp only at *
      subst herror
      rw [← heditor, ← hwindow, ← hcapacity] at hrest
      obtain ⟨herror, heditor', hlog'', hwindow', hcapacity'⟩ := ih hlog' hrest
      rw [hwindow, hcapacity, heditor] at heditor'
      exact ⟨herror, heditor', hlog'', hwindow'.trans hwindow, hcapacity'.trans hcapacity⟩

theorem SamePage.editor {t u : Terminal} (same : t.SamePage u) : t.editor = u.editor := by
  simp only [Terminal.editor, same.line.content, same.line.cursor, same.modes, same.plainLog]

variable {config : Config}

-- What well-formed output does to the line is what it does to an editor, wherever the line lies in
-- its ring and however it wraps. The raw log matters only for the error that is told.
theorem feed_tokens {t : Terminal} (h : t.Reachable config) (hphase : t.phase = .normal)
    (hlog : t.PlainLogGentle) (tokens : List Editor.Token)
    (hwell : ∀ token ∈ tokens, token.WellFormed (max config.escapeCapacity 8))
    (hfits : Editor.Fits (max config.lineCapacity 1) t.modes.window t.editor tokens) :
    let outcome := t.feed (tokens.flatMap Editor.Token.bytes)
    outcome.state.phase = .normal ∧
    outcome.state.editor =
      t.editor.applyAll (max config.lineCapacity 1) t.modes.window tokens ∧
    (t.RawLogGentle → outcome.error = none) := by
  intro outcome
  have sound := h.sound
  have hcleared := sound.cleared
  have hground : t.cleared.reader = .ground := hcleared.reader_ground hphase
  obtain ⟨hafter, hedits⟩ := Editor.read_tokens hwell (Nat.le_max_right _ _)
  rw [← h.held_capacity] at hafter hedits
  rw [← h.line_capacity] at hfits ⊢
  have hfollows := PlainLogGentle.follows_tokens (t := t.cleared) hlog tokens hfits
  obtain ⟨herror, hpage⟩ := hcleared.interpret_editAll (tokens.flatMap Editor.Token.bytes)
  have hreads := hcleared.reads_interpret (tokens.flatMap Editor.Token.bytes)
  rw [hground, show t.cleared.held = t.held from rfl, hedits] at herror hpage
  rw [hfollows.error] at herror
  have hreader := hreads.reader
  rw [consumed_eq _ herror, hground, show t.cleared.held = t.held from rfl, hafter] at hreader
  refine ⟨?_, ?_, ?_⟩
  · simp only [outcome]
    rw [feed_state]
    exact congrArg Reader.phase hreader
  · simp only [outcome]
    rw [feed_state]
    exact hpage.editor.trans hfollows.editor
  · intro hraw
    exact (hraw.feed sound _).1.trans herror

-- A line put together with blanks and deletions, and a log that takes its first byte alone
theorem feed_tokens_overwrite :
    let t := (Terminal.ofConfig { lineCapacity := 4 }).setLogs (some { script := [.take 1] }) none
    let tokens : List Editor.Token :=
      [.text 0x61, .text 0x62, .cursorForward [], .carriageReturn, .deleteChars [0x30, 0x31],
        .text 0x63, .privateMode [0x31] true, .newline]
    (t.feed (tokens.flatMap Editor.Token.bytes)).state.editor =
      ⟨[], 0, false, true, [0x63, 0x20, 0x0a]⟩ := by
  intro t tokens
  have hlog : t.PlainLogGentle := ⟨_, rfl, rfl, by simp [Answer.Gentle]⟩
  obtain ⟨-, heditor, -⟩ := feed_tokens (t := t) (.setLogs _ _ .start) rfl hlog tokens
    (by decide) (by decide)
  exact heditor

end TerminalRelay.Terminal
