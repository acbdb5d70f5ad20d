import TerminalRelay.Proofs.Terminal.Reachable

namespace TerminalRelay

namespace Reader

-- What the bytes read do to the line and the modes, in order; most bytes do nothing.
def edits (capacity : Nat) (reader : Reader) (bytes : Bytes) : List Edit :=
  ((reports capacity reader bytes).map Report.edit).filter (· ≠ .keep)

@[simp] theorem edits_nil (capacity : Nat) (reader : Reader) : edits capacity reader [] = [] := rfl

theorem edits_cons (capacity : Nat) (reader : Reader) (byte : UInt8) (rest : Bytes) :
    edits capacity reader (byte :: rest) =
      (if (read capacity reader byte).2.edit = .keep then [] else
        [(read capacity reader byte).2.edit]) ++
        edits capacity (read capacity reader byte).1 rest := by
  by_cases h : (read capacity reader byte).2.edit = .keep <;> simp [edits, h]

theorem edits_append (capacity : Nat) (reader : Reader) (left right : Bytes) :
    edits capacity reader (left ++ right) =
      edits capacity reader left ++ edits capacity (after capacity reader left) right := by
  simp only [edits, reports_append, List.map_append, List.filter_append]

end Reader

namespace Terminal

-- Edits one after the other, up to the first that fails
def editAll (t : Terminal) : List Edit → Outcome Terminal
  | [] => ⟨t, none⟩
  | edit :: rest => (t.edit edit).andThen fun u => u.editAll rest

theorem editAll_append (t : Terminal) (left right : List Edit) :
    t.editAll (left ++ right) = (t.editAll left).andThen fun u => u.editAll right := by
  induction left generalizing t with
  | nil => rfl
  | cons edit rest ih =>
      rw [List.cons_append, editAll, editAll]
      obtain ⟨next, error⟩ := t.edit edit
      cases error with
      | none => exact ih next
      | some error => rfl

theorem SamePage.editAll {t u : Terminal} (same : t.SamePage u) (edits : List Edit) :
    (t.editAll edits).error = (u.editAll edits).error ∧
    (t.editAll edits).state.SamePage (u.editAll edits).state := by
  induction edits generalizing t u with
  | nil => exact ⟨rfl, same⟩
  | cons edit rest ih =>
      obtain ⟨herror, hedit⟩ := same.edit edit
      rw [Terminal.editAll, Terminal.editAll]
      generalize t.edit edit = outcome at herror hedit
      generalize u.edit edit = outcome' at herror hedit
      obtain ⟨next, error⟩ := outcome
      obtain ⟨next', error'⟩ := outcome'
      dsimp only at herror
      subst herror
      cases error with
      | none => exact ih hedit
      | some error => exact ⟨rfl, hedit⟩

-- The line, the modes and the plain log of a chunk come from its edits alone.
theorem Sound.interpret_editAll {t : Terminal} (sound : t.Sound) (chunk : Bytes) :
    (t.interpret chunk).error = (t.editAll (t.reader.edits t.held.capacity chunk)).error ∧
    (t.interpret chunk).state.SamePage
      (t.editAll (t.reader.edits t.held.capacity chunk)).state := by
  induction chunk generalizing t with
  | nil => exact ⟨rfl, .refl t⟩
  | cons byte rest ih =>
      have hstep := sound.settles byte
      have hsound := sound.step byte
      have hcons : t.editAll (t.reader.edits t.held.capacity (byte :: rest)) =
          (t.edit (t.reader.read t.held.capacity byte).2.edit).andThen fun u =>
            u.editAll ((t.reader.read t.held.capacity byte).1.edits t.held.capacity rest) := by
        rw [Reader.edits_cons]
        by_cases hkeep : (t.reader.read t.held.capacity byte).2.edit = .keep
        · rw [if_pos hkeep, hkeep]
          rfl
        · rw [if_neg hkeep]
          rfl
      have herror := hstep.error
      have hpage := hstep.page
      have hcapacity := hstep.capacity
      have hreader := hstep.reader
      rw [hcons, interpret, ← hreader]
      generalize t.step byte = outcome at herror hpage hsound hcapacity hreader
      generalize t.edit (t.reader.read t.held.capacity byte).2.edit = edited at herror hpage
      obtain ⟨next, error⟩ := outcome
      obtain ⟨page, error'⟩ := edited
      dsimp only at herror hpage hsound hcapacity hreader
      subst herror
      cases error with
      | none =>
          obtain ⟨herror, hrest⟩ := ih hsound
          obtain ⟨herror', hrest'⟩ := hpage.editAll (next.reader.edits next.held.capacity rest)
          rw [← hcapacity]
          exact ⟨herror.trans herror', hrest.trans hrest'⟩
      | some error => exact ⟨rfl, hpage⟩

theorem edit_capacity (t : Terminal) (edit : Edit) :
    (t.edit edit).state.line.capacity = t.line.capacity := by
  cases edit with
  | keep => rfl
  | put byte =>
      simp only [Terminal.edit, putLine]
      split
      · exact ByteRing.capacity_put _ _ ‹_›
      · rfl
  | endLine =>
      simp only [Terminal.edit, endLine]
      split
      · rfl
      · split <;> rfl
  | returnCarriage => rfl
  | stepBack => rfl
  | act action =>
      cases action with
      | eraseToEnd => rfl
      | cursorUp count =>
          simp only [Terminal.edit, apply, cursorUp]
          split <;> rfl
      | cursorForward count =>
          simp only [Terminal.edit, apply, cursorForward]
          split
          · rfl
          · split
            · exact ByteRing.capacity_put _ _ ‹_›
            · rfl
      | deleteChars count =>
          simp only [Terminal.edit, apply, deleteChars]
          split
          · exact ByteRing.capacity_remove _ _ _
          · rfl
      | appCursor on => rfl
      | altScreen mode on => rfl

theorem editAll_capacity (t : Terminal) (edits : List Edit) :
    (t.editAll edits).state.line.capacity = t.line.capacity := by
  induction edits generalizing t with
  | nil => rfl
  | cons edit rest ih =>
      have hedit := edit_capacity t edit
      rw [Terminal.editAll]
      generalize t.edit edit = outcome at hedit
      obtain ⟨next, error⟩ := outcome
      cases error with
      | none => exact (ih next).trans hedit
      | some error => exact hedit

theorem Reachable.line_capacity {config : Config} {t : Terminal} (h : t.Reachable config) :
    t.line.capacity = max config.lineCapacity 1 := by
  induction h with
  | start => simp [ofConfig, ByteRing.empty, ByteRing.capacity]
  | @feed t chunk h ih =>
      obtain ⟨-, hpage⟩ := h.sound.cleared.interpret_editAll chunk
      rw [feed_state]
      exact (hpage.line.capacity.trans (editAll_capacity _ _)).trans ih
  | reset h ih => exact ih
  | setLogs plain raw h ih => exact ih
  | setForward on h ih => exact ih
  | setModes modes h ih => exact ih

end Terminal

end TerminalRelay
