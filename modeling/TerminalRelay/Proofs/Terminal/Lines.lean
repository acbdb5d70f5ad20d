import TerminalRelay.Proofs.Terminal.Collecting
import TerminalRelay.Proofs.Sequence.Table

namespace TerminalRelay

namespace Reader

variable {capacity : Nat}

-- A newline never goes on with a sequence, wherever in it it comes.
theorem scan_newline {held : Bytes} (hopen : Sequence.Open held) :
    Sequence.scan (held ++ [Byte.newline]) = .aborted := by
  have hne : held ≠ [] := by
    intro hnil
    rw [hnil] at hopen
    cases hopen
  refine Sequence.scan_aborted hopen ?_ ?_ ?_
  · intro hnext
    exact absurd (hnext.last hne) (by decide)
  · intro hcomplete
    exact absurd (hcomplete.open hne).2 (by decide)
  · intro htitle
    have hpair : held ++ [Byte.newline] = [Byte.escape] ++ [']'.toUInt8] := htitle
    exact absurd (List.append_singleton_inj.mp hpair).2 (by decide)

theorem readHeld_newline {held : Bytes} (hopen : Sequence.Open held) :
    (readHeld capacity held Byte.newline).2.edit = .endLine := by
  have hescape : Byte.newline ≠ Byte.escape := by decide
  rw [readHeld, if_neg hescape]
  split
  · rw [scan_newline hopen]
    rfl
  · rfl

-- In all phases but one a newline ends the line; inside a title it is a byte of the title.
theorem Coherent.edit_newline {reader : Reader} (hcoherent : reader.Coherent capacity) :
    (Reader.read capacity reader Byte.newline).2.edit =
      if reader.phase = .title false then .keep else .endLine := by
  obtain ⟨phase, held⟩ := reader
  cases phase with
  | normal => rfl
  | collecting => exact readHeld_newline hcoherent.1
  | title sawEscape =>
      cases sawEscape with
      | false => rfl
      | true => exact readHeld_newline .escape
  | overlong => rfl

theorem edit_ofText {byte : UInt8} (hbyte : byte ≠ Byte.newline) :
    Edit.ofText byte ≠ .endLine := by
  rw [Edit.ofText, if_neg hbyte]
  split <;> simp

theorem edit_readOverlong {byte : UInt8} (hbyte : byte ≠ Byte.newline) (held : Bytes) :
    (readOverlong held byte).2.edit ≠ .endLine := by
  unfold readOverlong
  split
  · simp
  split
  · simp
  split
  · simp
  · exact edit_ofText hbyte

theorem edit_readHeld {byte : UInt8} (hbyte : byte ≠ Byte.newline) (held : Bytes) :
    (readHeld capacity held byte).2.edit ≠ .endLine := by
  unfold readHeld
  split
  · simp
  split
  · cases Sequence.scan (held ++ [byte]) with
    | pending => simp [readScanned]
    | title => simp [readScanned]
    | known action => simp [readScanned]
    | unknown =>
        dsimp only [readScanned]
        split <;> simp [Report.ofUnhandled]
    | aborted => exact edit_ofText hbyte
  · exact edit_readOverlong hbyte held

theorem edit_ne_endLine {byte : UInt8} (hbyte : byte ≠ Byte.newline) (reader : Reader) :
    (Reader.read capacity reader byte).2.edit ≠ .endLine := by
  obtain ⟨phase, held⟩ := reader
  unfold read
  split
  · simp
  split
  · split <;> simp
  split
  · split <;> simp
  cases phase with
  | normal =>
      dsimp only
      split
      · simp
      · exact edit_ofText hbyte
  | collecting => exact edit_readHeld hbyte held
  | title sawEscape =>
      cases sawEscape with
      | false =>
          dsimp only
          split <;> simp
      | true =>
          dsimp only
          split
          · simp
          · exact edit_readHeld hbyte _
  | overlong => exact edit_readOverlong hbyte held

end Reader

namespace Terminal

def endsLine (t : Terminal) (byte : UInt8) : Bool :=
  byte = Byte.newline ∧ t.phase ≠ .title false

-- The lines that a chunk ends, each as it stands when its newline comes
def endedLines (t : Terminal) : Bytes → List Bytes
  | [] => []
  | byte :: rest =>
    match t.step byte with
    | ⟨next, none⟩ => (if t.endsLine byte then [t.line.toList] else []) ++ next.endedLines rest
    | ⟨_, some _⟩ => []

theorem endedLines_singleton {t : Terminal} {byte : UInt8} (h : (t.step byte).error = none) :
    t.endedLines [byte] = if t.endsLine byte then [t.line.toList] else [] := by
  rw [endedLines]
  generalize t.step byte = outcome at h ⊢
  obtain ⟨next, error⟩ := outcome
  dsimp only at h
  subst h
  exact List.append_nil _

def withNewlines (lines : List Bytes) : Bytes :=
  lines.flatMap (· ++ [Byte.newline])

theorem withNewlines_append (left right : List Bytes) :
    withNewlines (left ++ right) = withNewlines left ++ withNewlines right :=
  List.flatMap_append

-- What the plain log holds
def written (t : Terminal) : Option Bytes :=
  t.plainLog.map Writer.contents

-- No edit but the end of a line looks at the plain log.
theorem edit_setPlainLog (t : Terminal) {edit : Edit} (hedit : edit ≠ .endLine)
    (log : Option Writer) :
    ({ t with plainLog := log } : Terminal).edit edit =
      (t.edit edit).map fun u => { u with plainLog := log } := by
  cases edit with
  | keep => rfl
  | put byte =>
      simp only [Terminal.edit, putLine]
      split <;> rfl
  | endLine => exact absurd rfl hedit
  | returnCarriage => rfl
  | stepBack => rfl
  | act action =>
      cases action with
      | eraseToEnd => rfl
      | cursorUp count =>
          simp only [Terminal.edit, apply, cursorUp]
          split <;> rfl
      | cursorForward count =>
          simp only [Terminal.edit, apply, cursorForward]
          split
          · rfl
          · split <;> rfl
      | deleteChars count =>
          simp only [Terminal.edit, apply, deleteChars]
          split <;> rfl
      | appCursor on => rfl
      | altScreen mode on => rfl

theorem edit_plainLog (t : Terminal) {edit : Edit} (hedit : edit ≠ .endLine) :
    (t.edit edit).state.plainLog = t.plainLog :=
  congrArg (fun outcome => outcome.state.plainLog) (edit_setPlainLog t hedit t.plainLog)

theorem written_endLine (t : Terminal) (h : t.endLine.error = none) :
    t.endLine.state.written = t.written.map (· ++ (t.line.toList ++ [Byte.newline])) := by
  have hends := endsAs_endLine t
  generalize t.endLine = outcome at hends h ⊢
  cases hends with
  | unlogged hlog => simp [written, hlog]
  | @logged log last hlog hdelivered =>
      have hcontents := (log.begins_deliverLine t.line).contents (by rw [hdelivered])
      rw [hdelivered] at hcontents
      exact (congrArg some hcontents).trans (by rw [written, hlog]; rfl)
  | refused hlog hdelivered => exact absurd h (by simp)

theorem endsLine_iff {t : Terminal} {byte : UInt8} :
    t.endsLine byte = true ↔ byte = Byte.newline ∧ t.phase ≠ .title false := decide_eq_true_iff

-- The reader tells the ends of lines that it sees, and no others.
theorem Sound.edit_eq_endLine {t : Terminal} (sound : t.Sound) (byte : UInt8) :
    (Reader.read t.held.capacity t.reader byte).2.edit = .endLine ↔ t.endsLine byte = true := by
  rw [endsLine_iff]
  by_cases hbyte : byte = Byte.newline
  · subst hbyte
    rw [sound.coherent.edit_newline]
    by_cases hphase : t.phase = .title false <;> simp [reader, hphase]
  · simp [hbyte, Reader.edit_ne_endLine hbyte]

theorem Sound.written_step {t : Terminal} (sound : t.Sound) (byte : UInt8)
    (h : (t.step byte).error = none) : (t.step byte).state.written =
      t.written.map (· ++ withNewlines (if t.endsLine byte then [t.line.toList] else [])) := by
  have hstep := sound.settles byte
  have hlog : (t.step byte).state.written =
      (t.edit (Reader.read t.held.capacity t.reader byte).2.edit).state.written :=
    congrArg (Option.map Writer.contents) hstep.page.plainLog
  rw [hstep.error] at h
  rw [hlog]
  by_cases hends : t.endsLine byte = true
  · rw [(sound.edit_eq_endLine byte).mpr hends] at h ⊢
    rw [if_pos hends, withNewlines, List.flatMap_singleton]
    exact written_endLine t h
  · have hedit := fun hend => hends ((sound.edit_eq_endLine byte).mp hend)
    have hnothing : (fun before : Bytes => before ++ withNewlines []) = id :=
      funext List.append_nil
    rw [written, edit_plainLog t hedit, if_neg hends, hnothing, Option.map_id]
    rfl

-- A plain log gets the lines that are ended, in order and each with its newline, and nothing else.
theorem Sound.written_interpret {t : Terminal} (sound : t.Sound) {chunk : Bytes}
    (h : (t.interpret chunk).error = none) : (t.interpret chunk).state.written =
      t.written.map (· ++ withNewlines (t.endedLines chunk)) := by
  induction chunk generalizing t with
  | nil => simp [interpret, endedLines, withNewlines]
  | cons byte rest ih =>
      have hsound := sound.step byte
      have hstep := sound.written_step byte
      rw [interpret] at h ⊢
      rw [endedLines]
      generalize t.step byte = outcome at hsound hstep h ⊢
      obtain ⟨next, error⟩ := outcome
      cases error with
      | none =>
          dsimp only at hsound hstep h ⊢
          rw [ih hsound h, hstep rfl, Option.map_map]
          congr 1
          funext before
          exact (List.append_assoc _ _ _).trans (by rw [withNewlines_append])
      | some error => exact absurd h (by simp)

theorem interpret_of_feed {t : Terminal} {chunk : Bytes} (h : (t.feed chunk).error = none) :
    (t.cleared.interpret chunk).error = none := by
  rw [feed_eq, conclude_error, Option.or_eq_none_iff] at h
  exact h.2

theorem Sound.written_feed {t : Terminal} (sound : t.Sound) {chunk : Bytes}
    (h : (t.feed chunk).error = none) : (t.feed chunk).state.written =
      t.written.map (· ++ withNewlines (t.cleared.endedLines chunk)) := by
  have hfeed : (t.feed chunk).state.written = (t.cleared.interpret chunk).state.written := by
    rw [feed_state]
    rfl
  rw [hfeed, sound.cleared.written_interpret (interpret_of_feed h)]
  rfl

end Terminal

end TerminalRelay
