import TerminalRelay.Proofs.Terminal.Page
import TerminalRelay.Proofs.Terminal.Turns
import TerminalRelay.Proofs.Tracked.Basic

namespace TerminalRelay

namespace Tracked

-- The account is about this terminal: what is traced is what there is in the store, in the line
-- and in the stream to the viewers.
structure Follows (s : Tracked) (t : Terminal) : Prop where
  terminal : s.terminal = t
  store : s.store.map Traced.value = t.held.toList
  line : s.line.map Traced.value = t.line.toList
  viewers : s.viewers.map Traced.value = t.viewers.items.toList

structure Ends (outcome : Outcome Tracked) (outcome' : Outcome Terminal) : Prop where
  state : outcome.state.Follows outcome'.state
  error : outcome.error = outcome'.error

end Tracked

inductive TrackedTurn.Follows : TrackedTurn → Turn → Prop
  | settled {outcome : Outcome Tracked} {outcome' : Outcome Terminal}
      (h : Tracked.Ends outcome outcome') : Follows (.settled outcome) (.settled outcome')
  | again {s : Tracked} {t : Terminal} (h : s.Follows t) : Follows (.again s) (.again t)

namespace Traced

variable {α : Type}

theorem map_put (content : List (Traced α)) (cursor : Nat) (traced : Traced α) :
    (put content cursor traced).map Traced.value = (content.map Traced.value).take cursor ++
      traced.value :: (content.map Traced.value).drop (cursor + 1) := by
  rw [put, List.map_append, List.map_take, List.map_cons, List.map_drop]

theorem map_old (content : List α) :
    (content.map Traced.old).map Traced.value = content := by
  rw [List.map_map]
  exact List.map_id content

end Traced

namespace Tracked

variable {s : Tracked} {t : Terminal}

theorem follows_ofTerminal (t : Terminal) : (ofTerminal t).Follows t :=
  ⟨rfl, Traced.map_old _, Traced.map_old _, Traced.map_old _⟩

theorem Follows.ends (h : s.Follows t) : Ends ⟨s, none⟩ ⟨t, none⟩ := ⟨h, rfl⟩

theorem Follows.done (h : s.Follows t) : (TrackedTurn.done s).Follows (.done t) := .settled h.ends

theorem Follows.length_store (h : s.Follows t) : s.store.length = t.held.size := by
  rw [← ByteRing.length_toList, ← h.store, List.length_map]

theorem Follows.change (h : s.Follows t) (f : Terminal → Terminal) (hheld : (f t).held = t.held)
    (hline : (f t).line.toList = t.line.toList) (hviewers : (f t).viewers = t.viewers) :
    (s.change f).Follows (f t) := by
  obtain ⟨rfl, hstore, hline', hviewers'⟩ := h
  refine ⟨rfl, ?_, ?_, ?_⟩
  · rw [hheld]
    exact hstore
  · rw [hline]
    exact hline'
  · rw [hviewers]
    exact hviewers'

theorem Follows.emit (h : s.Follows t) (items : List (Traced Transport.Item)) :
    (s.emit items).Follows (t.emit (items.map Traced.value)) := by
  obtain ⟨rfl, hstore, hline, hviewers⟩ := h
  unfold Tracked.emit Terminal.emit
  split
  · refine ⟨rfl, hstore, hline, ?_⟩
    rw [List.map_append, hviewers]
    simp
  · exact ⟨rfl, hstore, hline, hviewers⟩

theorem Follows.forwardByte (h : s.Follows t) (byte : UInt8) :
    (s.forwardByte byte).Follows (t.forwardByte byte) :=
  h.emit [⟨.data byte, true⟩]

theorem Follows.heldBytes (h : s.Follows t) : s.heldBytes.map Traced.value = t.heldBytes := by
  rw [Tracked.heldBytes, List.map_take, h.store, h.terminal]
  exact List.take_left

theorem Follows.forwardHeld (h : s.Follows t) : s.forwardHeld.Follows t.forwardHeld := by
  have hitems : (s.heldBytes.map (Traced.map Transport.Item.data)).map Traced.value =
      t.heldBytes.map .data := by
    rw [← h.heldBytes, List.map_map, List.map_map]
    rfl
  have hemit := h.emit (s.heldBytes.map (Traced.map .data))
  rwa [hitems] at hemit

theorem Follows.enter (h : s.Follows t) (phase : Phase) :
    (s.enter phase).Follows { t with held := t.held.clear, phase } := by
  obtain ⟨rfl, hstore, hline, hviewers⟩ := h
  exact ⟨rfl, (ByteRing.toList_clear _).symm, hline, hviewers⟩

theorem Follows.toNormal (h : s.Follows t) : s.toNormal.Follows t.toNormal := h.enter .normal

theorem Follows.abandon (h : s.Follows t) : s.abandon.Follows t.abandon := by
  unfold Tracked.abandon Terminal.abandon
  rw [h.terminal]
  split
  · exact h.forwardHeld.toNormal
  · exact h.toNormal

theorem Follows.hold (h : s.Follows t) (traced : Traced UInt8)
    (room : t.held.cursor < t.held.capacity)
    (room' : s.terminal.held.cursor < s.terminal.held.capacity) :
    (s.hold traced room').Follows { t with held := t.held.put traced.value room } := by
  obtain ⟨rfl, hstore, hline, hviewers⟩ := h
  refine ⟨rfl, ?_, hline, hviewers⟩
  rw [ByteRing.toList_put, ← hstore]
  exact Traced.map_put _ _ _

theorem Follows.truncate (h : s.Follows t) (position : Nat) :
    (s.truncate position).Follows { t with held := t.held.truncate position } := by
  obtain ⟨rfl, hstore, hline, hviewers⟩ := h
  refine ⟨rfl, ?_, hline, hviewers⟩
  rw [ByteRing.toList_truncate, ← hstore]
  exact List.map_take

theorem Follows.beginSequence (h : s.Follows t) (current : Bool) :
    (s.beginSequence current).Follows t.beginSequence :=
  (h.enter .collecting).hold ⟨Byte.escape, current⟩ t.held.capacity_pos s.terminal.held.capacity_pos

theorem Follows.putLine (h : s.Follows t) (byte : UInt8) :
    Ends (s.putLine byte) (t.putLine byte) := by
  obtain ⟨rfl, hstore, hline, hviewers⟩ := h
  unfold Tracked.putLine Terminal.putLine
  split
  · refine ⟨⟨rfl, hstore, ?_, hviewers⟩, rfl⟩
    rw [ByteRing.toList_put, ← hline]
    exact Traced.map_put _ _ _
  · exact ⟨⟨rfl, hstore, hline, hviewers⟩, rfl⟩

theorem Follows.endLine (h : s.Follows t) : Ends s.endLine t.endLine := by
  obtain ⟨rfl, hstore, hline, hviewers⟩ := h
  have hends := s.terminal.endsAs_endLine
  unfold Tracked.endLine
  generalize s.terminal.endLine = ended at hends ⊢
  cases hends with
  | unlogged hlog => exact ⟨⟨rfl, hstore, (ByteRing.toList_clearOnward _).symm, hviewers⟩, rfl⟩
  | logged hlog hdelivered =>
      exact ⟨⟨rfl, hstore, (ByteRing.toList_clearOnward _).symm, hviewers⟩, rfl⟩
  | refused hlog hdelivered => exact ⟨⟨rfl, hstore, hline, hviewers⟩, rfl⟩

theorem Follows.plain (h : s.Follows t) (byte : UInt8) : Ends (s.plain byte) (t.plain byte) := by
  have hshown := h.forwardByte byte
  unfold Tracked.plain Terminal.plain
  dsimp only
  split
  · exact hshown.endLine
  split
  · exact hshown.putLine byte
  · exact hshown.ends

theorem map_lineAfter (h : s.line.map Traced.value = s.terminal.line.toList) (action : Action) :
    (s.lineAfter action).map Traced.value = (s.terminal.apply action).line.toList := by
  cases action with
  | eraseToEnd =>
      simp only [lineAfter, Terminal.apply, ByteRing.toList_truncate, List.map_take, h]
  | cursorUp count =>
      simp only [lineAfter, Terminal.apply, Terminal.cursorUp]
      split <;> exact h
  | cursorForward count =>
      simp only [lineAfter, Terminal.apply, Terminal.cursorForward]
      split
      · exact h
      split
      · rw [Traced.map_put, h]
        exact (ByteRing.toList_put _ Byte.space ‹_›).symm
      · exact h
  | deleteChars count =>
      simp only [lineAfter, Terminal.apply, Terminal.deleteChars]
      split
      · rw [List.map_append, List.map_take, List.map_drop, h, ByteRing.toList_remove]
      · exact h
  | appCursor on => exact h
  | altScreen mode on => exact h

theorem Follows.apply (h : s.Follows t) (action : Action) :
    (s.apply action).Follows (t.apply action) := by
  obtain ⟨rfl, hstore, hline, hviewers⟩ := h
  obtain ⟨modes, line, plainLog, notices, hframe⟩ := s.terminal.edit_frame (.act action)
  have hact : s.terminal.apply action = _ := hframe
  refine ⟨rfl, ?_, map_lineAfter hline action, ?_⟩
  · rw [hact]
    exact hstore
  · rw [hact]
    exact hviewers

theorem Follows.showAction (h : s.Follows t) (action : Action) :
    (s.showAction action).Follows (t.showAction action) := by
  cases action with
  | altScreen mode on =>
      have hemit := h.emit (((mode.markers on).map .marker).map .old)
      rwa [Traced.map_old] at hemit
  | eraseToEnd => exact h.forwardHeld
  | cursorUp count => exact h.forwardHeld
  | cursorForward count => exact h.forwardHeld
  | deleteChars count => exact h.forwardHeld
  | appCursor on => exact h.forwardHeld

theorem Follows.complete (h : s.Follows t) (byte : UInt8) (scan : Scan) :
    (TrackedTurn.settled (s.complete byte scan)).Follows (t.complete byte scan) := by
  cases scan with
  | pending => exact h.done
  | title => exact (h.enter (.title false)).done
  | known action => exact ((h.apply action).showAction action).toNormal.done
  | unknown =>
      have hrecorded := h.change
        (fun t => (t.note (.unhandledSequence t.heldBytes)).recordHeld) rfl rfl rfl
      unfold Tracked.complete Terminal.complete
      dsimp only
      rw [h.terminal]
      split
      · exact h.abandon.done
      · exact hrecorded.abandon.done
  | aborted =>
      have hcut := h.truncate (t.held.size - 1)
      unfold Tracked.complete Terminal.complete
      dsimp only
      rw [h.terminal]
      exact .settled (hcut.abandon.plain byte)

theorem Follows.outgrow (h : s.Follows t) : s.outgrow.Follows t.outgrow := by
  have hnoted := h.change (fun t => t.note (.sequenceTooLong t.held.size)) rfl rfl rfl
  exact hnoted.forwardHeld.change ({ · with phase := .overlong }) rfl rfl rfl

theorem Follows.collect (h : s.Follows t) (byte : UInt8) :
    (s.collect byte).Follows (t.collect byte) := by
  have hcursor : s.terminal.held = t.held := congrArg Terminal.held h.terminal
  unfold Tracked.collect Terminal.collect
  split
  · exact (h.abandon.beginSequence true).done
  by_cases room : t.held.cursor < t.held.capacity
  · have room' : s.terminal.held.cursor < s.terminal.held.capacity := by rwa [hcursor]
    have hheld := h.hold ⟨byte, true⟩ room room'
    rw [dif_pos room, dif_pos room']
    dsimp only
    rw [hheld.terminal]
    exact hheld.complete byte _
  · rw [dif_neg room, dif_neg (by rwa [hcursor])]
    exact .again h.outgrow

theorem Follows.passThrough (h : s.Follows t) (byte : UInt8) :
    (s.passThrough byte).Follows (t.passThrough byte) := by
  have hshown := h.forwardByte byte
  unfold Tracked.passThrough Terminal.passThrough
  split
  · exact hshown.done
  split
  · dsimp only
    split
    · exact hshown.toNormal.done
    · exact (hshown.change Terminal.recordHeld rfl rfl rfl).toNormal.done
  · exact .again h.toNormal

-- What a turn does is what it does without the account.
theorem Follows.turn (h : s.Follows t) (byte : UInt8) : (s.turn byte).Follows (t.turn byte) := by
  unfold Tracked.turn Terminal.turn
  rw [h.terminal]
  split
  · exact ((h.abandon.forwardByte byte).change Terminal.returnCarriage rfl rfl rfl).done
  split
  · split
    · exact h.done
    · exact ((h.forwardByte byte).change Terminal.stepBack rfl rfl rfl).done
  split
  · split
    · exact (h.change ({ · with phase := .normal }) rfl rfl rfl).done
    · exact (h.abandon.forwardByte byte).done
  cases t.phase with
  | normal =>
      dsimp only
      split
      · exact (h.beginSequence true).done
      · exact .settled (h.plain byte)
  | collecting => exact h.collect byte
  | title sawEscape =>
      cases sawEscape with
      | false =>
          dsimp only
          split
          · exact (h.change ({ · with phase := .title true }) rfl rfl rfl).done
          · exact h.done
      | true =>
          dsimp only
          split
          · exact (h.change ({ · with phase := .normal }) rfl rfl rfl).done
          · exact (h.beginSequence false).collect byte
  | overlong => exact h.passThrough byte

variable {next : Tracked} {byte : UInt8} {phases : List Phase} {outcome : Outcome Tracked}

theorem Follows.settled (h : s.Follows t) (hturn : s.turn byte = .settled outcome) :
    ∃ outcome', t.turn byte = .settled outcome' ∧ Ends outcome outcome' := by
  have hfollows := h.turn byte
  rw [hturn] at hfollows
  generalize t.turn byte = turn at hfollows ⊢
  cases hfollows with
  | settled hends => exact ⟨_, rfl, hends⟩

theorem Follows.turn_again (h : s.Follows t) (hturn : s.turn byte = .again next) :
    ∃ next', t.turn byte = .again next' ∧ next.Follows next' := by
  have hfollows := h.turn byte
  rw [hturn] at hfollows
  generalize t.turn byte = turn at hfollows ⊢
  cases hfollows with
  | again hnext => exact ⟨_, rfl, hnext⟩

theorem Follows.again (h : s.Follows t) (hturn : s.turn byte = .again next) :
    ∃ next', t.PassesOn next' ∧ next.Follows next' := by
  obtain ⟨next', hagain, hnext⟩ := h.turn_again hturn
  exact ⟨next', Terminal.turn_eq_again hagain, hnext⟩

-- The phases allow a byte to be read again less and less often, so that it is settled at last.
theorem Follows.exists_handles (h : s.Follows t) (byte : UInt8) :
    ∃ phases outcome, Handles byte s phases outcome := by
  induction hrereads : t.phase.rereads using Nat.strongRecOn generalizing s t with
  | ind rereads ih =>
      cases hturn : s.turn byte with
      | settled outcome => exact ⟨_, _, .last hturn⟩
      | again next =>
          obtain ⟨next', hpasses, hnext⟩ := h.again hturn
          obtain ⟨phases, outcome, hrest⟩ := ih _ (hrereads ▸ hpasses.rereads) hnext rfl
          exact ⟨_, _, .nested hturn hrest⟩

theorem Handles.chain (h : Handles byte s phases outcome) (hfollows : s.Follows t)
    (roomy : 8 ≤ t.held.capacity) :
    phases.head? = some t.phase ∧ phases.IsChain Phase.PassesOn := by
  induction h generalizing t with
  | last hturn =>
      rw [hfollows.terminal]
      exact ⟨rfl, .singleton _⟩
  | nested hturn h ih =>
      obtain ⟨next', hpasses, hnext⟩ := hfollows.again hturn
      obtain ⟨hhead, hchain⟩ := ih hnext (hpasses.capacity ▸ roomy)
      obtain ⟨rest, rfl⟩ := List.head?_eq_some_iff.mp hhead
      rw [hfollows.terminal]
      exact ⟨rfl, .cons_cons (hpasses.phase roomy) hchain⟩

-- As many turns as there are phases come to the same.
theorem Handles.ends (h : Handles byte s phases outcome) (hfollows : s.Follows t) {limit : Nat}
    (hlimit : phases.length ≤ limit) : Ends outcome (Terminal.turns limit t byte) := by
  induction h generalizing t limit with
  | last hturn =>
      obtain ⟨outcome', hsettled, hends⟩ := hfollows.settled hturn
      obtain ⟨limit, rfl⟩ := Nat.exists_eq_add_of_le' hlimit
      rw [List.length_singleton, Terminal.turns_succ, hsettled]
      exact hends
  | nested hturn h ih =>
      obtain ⟨next', hagain, hnext⟩ := hfollows.turn_again hturn
      rw [List.length_cons] at hlimit
      obtain ⟨limit, rfl⟩ := Nat.exists_eq_add_of_le' (Nat.le_trans (Nat.le_add_left 1 _) hlimit)
      rw [Terminal.turns_succ, hagain]
      exact ih hnext (Nat.le_of_succ_le_succ hlimit)

end Tracked

end TerminalRelay
