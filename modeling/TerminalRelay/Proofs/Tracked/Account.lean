import TerminalRelay.Proofs.Tracked.Basic

namespace TerminalRelay

theorem Traced.countP_old {α : Type} (content : List α) :
    (content.map Traced.old).countP Traced.current = 0 := by
  simp [List.countP_eq_zero, Traced.old]

theorem Traced.countP_around {α : Type} (content : List (Traced α)) {start stop : Nat}
    (h : start ≤ stop) : (content.take start ++ content.drop stop).countP Traced.current ≤
      content.countP Traced.current := by
  have hrest := List.Sublist.append_left (List.drop_sublist_drop_left content h)
    (content.take start)
  rw [List.take_append_drop] at hrest
  exact hrest.countP_le

-- What is written over is counted no longer.
theorem Traced.countP_put {α : Type} (content : List (Traced α)) (cursor : Nat)
    (traced : Traced α) : (put content cursor traced).countP Traced.current ≤
      content.countP Traced.current + [traced].countP Traced.current := by
  have hleft := Traced.countP_around content (Nat.le_add_right cursor 1)
  rw [List.countP_append] at hleft
  rw [put, ← List.singleton_append, List.countP_append, List.countP_append]
  omega

def TrackedTurn.after : TrackedTurn → Tracked
  | .settled outcome => outcome.state
  | .again tracked => tracked

namespace Tracked

-- What gets to the viewers of what is sent to them
def sent (s : Tracked) (items : List (Traced Transport.Item)) : List (Traced Transport.Item) :=
  if s.terminal.forward then items else []

-- All that is there of the byte has been put down. From the stream nothing is taken back; from the
-- store and the line it may be gone again.
structure Accounted (s : Tracked) : Prop where
  shown : s.viewers.countP Traced.current = s.deeds.count .shown
  stored : s.store.countP Traced.current ≤ s.deeds.count .stored
  written : s.line.countP Traced.current ≤ s.deeds.count .written

-- What a turn can come to, whatever the phase and the byte are that it comes of
inductive Turns (s : Tracked) (byte : UInt8) : TrackedTurn → Prop
  | passed (f : Terminal → Terminal) : Turns s byte (.done (s.change f))
  | shown (f : Terminal → Terminal) : Turns s byte (.done ((s.forwardByte byte).change f))
  | abandoned (f : Terminal → Terminal) :
      Turns s byte (.done ((s.abandon.forwardByte byte).change f))
  | begun : Turns s byte (.done (s.beginSequence true))
  | text : Turns s byte (.settled (s.plain byte))
  | held : Turns s byte (s.collect byte)
  | heldAnew : Turns s byte ((s.beginSequence false).collect byte)
  | overlong : Turns s byte (s.passThrough byte)

theorem turns_turn (s : Tracked) (byte : UInt8) : s.Turns byte (s.turn byte) := by
  unfold turn
  split
  · exact .abandoned Terminal.returnCarriage
  split
  · split
    · exact .passed id
    · exact .shown Terminal.stepBack
  split
  · split
    · exact .passed ({ · with phase := .normal })
    · exact .abandoned id
  cases s.terminal.phase with
  | normal =>
      dsimp only
      split
      · exact .begun
      · exact .text
  | collecting => exact .held
  | title sawEscape =>
      cases sawEscape with
      | false =>
          dsimp only
          split
          · exact .passed ({ · with phase := .title true })
          · exact .passed id
      | true =>
          dsimp only
          split
          · exact .passed ({ · with phase := .normal })
          · exact .heldAnew
  | overlong => exact .overlong

variable {s : Tracked}

theorem viewers_emit (s : Tracked) (items : List (Traced Transport.Item)) :
    (s.emit items).viewers = s.viewers ++ s.sent items := by
  unfold emit sent
  split
  · rfl
  · exact (List.append_nil _).symm

theorem deeds_emit (s : Tracked) (items : List (Traced Transport.Item)) : (s.emit items).deeds =
    s.deeds ++ List.replicate ((s.sent items).countP Traced.current) .shown := by
  unfold emit sent
  split
  · rfl
  · exact (List.append_nil _).symm

theorem store_emit (s : Tracked) (items : List (Traced Transport.Item)) :
    (s.emit items).store = s.store := by
  unfold emit
  split <;> rfl

theorem line_emit (s : Tracked) (items : List (Traced Transport.Item)) :
    (s.emit items).line = s.line := by
  unfold emit
  split <;> rfl

theorem deeds_hold (s : Tracked) (traced : Traced UInt8)
    (room : s.terminal.held.cursor < s.terminal.held.capacity) : (s.hold traced room).deeds =
      s.deeds ++ List.replicate ([traced].countP Traced.current) .stored := by
  obtain ⟨value, current⟩ := traced
  cases current <;> rfl

-- What the line has no room for is not put down as written.
theorem deeds_putLine (s : Tracked) (byte : UInt8) : (s.putLine byte).state.deeds =
    s.deeds ++ List.replicate (if s.terminal.line.cursor < s.terminal.line.capacity then 1 else 0)
      .written := by
  unfold putLine
  split
  · rfl
  · exact (List.append_nil _).symm

theorem accounted_ofTerminal (t : Terminal) : (ofTerminal t).Accounted :=
  ⟨Traced.countP_old _, Nat.le_of_eq (Traced.countP_old _), Nat.le_of_eq (Traced.countP_old _)⟩

namespace Accounted

theorem change (h : s.Accounted) (f : Terminal → Terminal) : (s.change f).Accounted :=
  ⟨h.shown, h.stored, h.written⟩

theorem emit (h : s.Accounted) (items : List (Traced Transport.Item)) :
    (s.emit items).Accounted := by
  refine ⟨?_, ?_, ?_⟩
  · rw [viewers_emit, deeds_emit, List.countP_append, List.count_append,
      List.count_replicate_self, h.shown]
  · rw [store_emit, deeds_emit, List.count_append]
    exact Nat.le_add_right_of_le h.stored
  · rw [line_emit, deeds_emit, List.count_append]
    exact Nat.le_add_right_of_le h.written

theorem forwardByte (h : s.Accounted) (byte : UInt8) : (s.forwardByte byte).Accounted :=
  h.emit _

theorem forwardHeld (h : s.Accounted) : s.forwardHeld.Accounted :=
  h.emit _

theorem hold (h : s.Accounted) (traced : Traced UInt8)
    (room : s.terminal.held.cursor < s.terminal.held.capacity) :
    (s.hold traced room).Accounted := by
  refine ⟨?_, ?_, ?_⟩
  · rw [deeds_hold, List.count_append, List.count_replicate]
    exact h.shown
  · rw [deeds_hold, List.count_append, List.count_replicate_self]
    exact Nat.le_trans (Traced.countP_put s.store _ traced) (Nat.add_le_add_right h.stored _)
  · rw [deeds_hold, List.count_append]
    exact Nat.le_add_right_of_le h.written

theorem truncate (h : s.Accounted) (position : Nat) : (s.truncate position).Accounted :=
  ⟨h.shown, Nat.le_trans (List.take_sublist _ _).countP_le h.stored, h.written⟩

theorem enter (h : s.Accounted) (phase : Phase) : (s.enter phase).Accounted :=
  ⟨h.shown, Nat.zero_le _, h.written⟩

theorem toNormal (h : s.Accounted) : s.toNormal.Accounted :=
  h.enter .normal

theorem abandon (h : s.Accounted) : s.abandon.Accounted := by
  unfold Tracked.abandon
  split
  · exact h.forwardHeld.toNormal
  · exact h.toNormal

theorem beginSequence (h : s.Accounted) (current : Bool) : (s.beginSequence current).Accounted :=
  (h.enter .collecting).hold _ _

theorem putLine (h : s.Accounted) (byte : UInt8) : (s.putLine byte).state.Accounted := by
  unfold Tracked.putLine
  split
  · have hput := Traced.countP_put s.line s.terminal.line.cursor ⟨byte, true⟩
    refine ⟨?_, ?_, ?_⟩
    · rw [List.count_append]
      exact h.shown
    · rw [List.count_append]
      exact h.stored
    · rw [List.count_append]
      exact Nat.le_trans hput (Nat.add_le_add_right h.written 1)
  · exact h

theorem endLine (h : s.Accounted) : s.endLine.state.Accounted := by
  refine ⟨h.shown, h.stored, ?_⟩
  simp only [Tracked.endLine]
  split
  · exact Nat.zero_le _
  · exact h.written

theorem plain (h : s.Accounted) (byte : UInt8) : (s.plain byte).state.Accounted := by
  have hshown := h.forwardByte byte
  unfold Tracked.plain
  dsimp only
  split
  · exact hshown.endLine
  split
  · exact hshown.putLine byte
  · exact hshown

-- An action puts nothing of the byte into the line.
theorem lineAfter (h : s.Accounted) (action : Action) :
    (s.lineAfter action).countP Traced.current ≤ s.deeds.count .written := by
  refine Nat.le_trans ?_ h.written
  cases action with
  | eraseToEnd => exact (List.take_sublist _ _).countP_le
  | cursorForward count =>
      simp only [Tracked.lineAfter]
      split
      · exact Nat.le_refl _
      split
      · exact Traced.countP_put s.line _ (.old Byte.space)
      · exact Nat.le_refl _
  | deleteChars count =>
      simp only [Tracked.lineAfter]
      split
      · exact Traced.countP_around s.line (Nat.le_add_right _ count)
      · exact Nat.le_refl _
  | cursorUp count => exact Nat.le_refl _
  | appCursor on => exact Nat.le_refl _
  | altScreen mode on => exact Nat.le_refl _

theorem apply (h : s.Accounted) (action : Action) : (s.apply action).Accounted :=
  ⟨h.shown, h.stored, h.lineAfter action⟩

theorem showAction (h : s.Accounted) (action : Action) : (s.showAction action).Accounted := by
  cases action <;> exact h.emit _

theorem complete (h : s.Accounted) (byte : UInt8) (scan : Scan) :
    (s.complete byte scan).state.Accounted := by
  cases scan with
  | pending => exact h
  | title => exact h.enter _
  | known action => exact ((h.apply action).showAction action).toNormal
  | unknown =>
      unfold Tracked.complete
      dsimp only
      split
      · exact h.abandon
      · exact (h.change _).abandon
  | aborted => exact (h.truncate _).abandon.plain byte

theorem outgrow (h : s.Accounted) : s.outgrow.Accounted :=
  (h.change _).forwardHeld.change _

theorem collect (h : s.Accounted) (byte : UInt8) : (s.collect byte).after.Accounted := by
  unfold Tracked.collect
  split
  · exact h.abandon.beginSequence true
  split
  · exact (h.hold _ _).complete byte _
  · exact h.outgrow

theorem passThrough (h : s.Accounted) (byte : UInt8) : (s.passThrough byte).after.Accounted := by
  have hshown := h.forwardByte byte
  unfold Tracked.passThrough
  split
  · exact hshown
  split
  · dsimp only
    split
    · exact hshown.toNormal
    · exact (hshown.change _).toNormal
  · exact h.toNormal

theorem turn (h : s.Accounted) (byte : UInt8) : (s.turn byte).after.Accounted := by
  have hturns := s.turns_turn byte
  generalize s.turn byte = turn at hturns ⊢
  cases hturns with
  | passed f => exact h.change f
  | shown f => exact (h.forwardByte byte).change f
  | abandoned f => exact (h.abandon.forwardByte byte).change f
  | begun => exact h.beginSequence true
  | text => exact h.plain byte
  | held => exact h.collect byte
  | heldAnew => exact (h.beginSequence false).collect byte
  | overlong => exact h.passThrough byte

end Accounted

theorem Handles.accounted {byte : UInt8} {phases : List Phase} {outcome : Outcome Tracked}
    (h : Handles byte s phases outcome) (accounted : s.Accounted) : outcome.state.Accounted := by
  induction h with
  | last hturn =>
      have hafter := accounted.turn byte
      rwa [hturn] at hafter
  | nested hturn h ih =>
      have hafter := accounted.turn byte
      rw [hturn] at hafter
      exact ih hafter

end Tracked

end TerminalRelay
