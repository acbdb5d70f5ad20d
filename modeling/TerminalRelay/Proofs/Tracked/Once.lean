import TerminalRelay.Proofs.Terminal.Held
import TerminalRelay.Proofs.Tracked.Account
import TerminalRelay.Proofs.Tracked.Follows

namespace TerminalRelay

open scoped List

namespace Tracked

variable {s : Tracked} {t : Terminal} {byte : UInt8}

theorem deeds_emit_sublist (s : Tracked) (items : List (Traced Transport.Item)) :
    (s.emit items).deeds <+ s.deeds ++ List.replicate (items.countP Traced.current) .shown := by
  have hsent : (s.sent items).countP Traced.current ≤ items.countP Traced.current := by
    unfold sent
    split
    · exact Nat.le_refl _
    · exact Nat.zero_le _
  rw [deeds_emit]
  exact List.Sublist.append_left ((List.replicate_sublist_replicate _).mpr hsent) _

theorem deeds_forwardByte (s : Tracked) (byte : UInt8) :
    (s.forwardByte byte).deeds <+ s.deeds ++ [.shown] :=
  s.deeds_emit_sublist [⟨.data byte, true⟩]

-- The byte is shown with the store no more often than it is in it.
theorem deeds_forwardHeld (s : Tracked) :
    s.forwardHeld.deeds <+ s.deeds ++ List.replicate (s.store.countP Traced.current) .shown := by
  have hcount : (s.heldBytes.map (Traced.map Transport.Item.data)).countP Traced.current ≤
      s.store.countP Traced.current := by
    rw [List.countP_map]
    exact (List.take_sublist _ _).countP_le
  exact (s.deeds_emit_sublist _).trans
    (List.Sublist.append_left ((List.replicate_sublist_replicate _).mpr hcount) _)

theorem deeds_abandon (s : Tracked) :
    s.abandon.deeds <+ s.deeds ++ List.replicate (s.store.countP Traced.current) .shown := by
  unfold abandon
  split
  · exact s.deeds_forwardHeld
  · exact List.sublist_append_left _ _

theorem deeds_showAction (s : Tracked) (action : Action) : (s.showAction action).deeds <+
    s.deeds ++ List.replicate (s.store.countP Traced.current) .shown := by
  cases action with
  | altScreen mode on =>
      have hshown := s.deeds_emit_sublist (((mode.markers on).map .marker).map .old)
      rw [Traced.countP_old] at hshown
      exact hshown.trans (List.Sublist.append_left (List.nil_sublist _) _)
  | eraseToEnd => exact s.deeds_forwardHeld
  | cursorUp count => exact s.deeds_forwardHeld
  | cursorForward count => exact s.deeds_forwardHeld
  | deleteChars count => exact s.deeds_forwardHeld
  | appCursor on => exact s.deeds_forwardHeld

theorem deeds_putLine_sublist (s : Tracked) (byte : UInt8) :
    (s.putLine byte).state.deeds <+ s.deeds ++ [.written] := by
  rw [deeds_putLine]
  split
  · exact List.Sublist.refl _
  · exact List.Sublist.append_left (List.nil_sublist _) _

theorem deeds_plain (s : Tracked) (byte : UInt8) :
    (s.plain byte).state.deeds <+ s.deeds ++ [.shown, .written] := by
  have hshown : (s.forwardByte byte).deeds <+ s.deeds ++ [.shown, .written] :=
    (s.deeds_forwardByte byte).trans (List.Sublist.append_left (by decide) _)
  unfold plain
  dsimp only
  split
  · exact hshown
  split
  · have hwritten := (deeds_putLine_sublist (s.forwardByte byte) byte).trans
      (List.Sublist.append_right (s.deeds_forwardByte byte) [.written])
    rwa [List.append_assoc] at hwritten
  · exact hshown

-- The byte is the last in the store. Where that makes the sequence unfit, it is taken out again
-- before the rest is shown, so that it is shown as text only.
theorem deeds_complete {before : List (Traced UInt8)} (hstore : s.store = before ++ [⟨byte, true⟩])
    (hold : before.countP Traced.current = 0) (hlength : before.length = s.terminal.held.size - 1)
    (scan : Scan) : (s.complete byte scan).state.deeds <+ s.deeds ++ [.shown, .written] := by
  have honce : s.store.countP Traced.current = 1 := by
    rw [hstore, List.countP_append, hold]
    rfl
  have hend : s.deeds ++ List.replicate (s.store.countP Traced.current) .shown <+
      s.deeds ++ [.shown, .written] := by
    rw [honce]
    exact List.Sublist.append_left (by decide) _
  cases scan with
  | pending => exact List.sublist_append_left _ _
  | title => exact List.sublist_append_left _ _
  | known action => exact ((s.apply action).deeds_showAction action).trans hend
  | unknown =>
      unfold complete
      dsimp only
      split
      · exact s.deeds_abandon.trans hend
      · exact (s.change _).deeds_abandon.trans hend
  | aborted =>
      have hcut : (s.truncate (s.terminal.held.size - 1)).store = before := by
        rw [truncate, hstore, ← hlength, List.take_left]
      have hnothing := (s.truncate (s.terminal.held.size - 1)).deeds_abandon
      rw [hcut, hold, List.replicate_zero, List.append_nil] at hnothing
      exact (deeds_plain _ byte).trans (List.Sublist.append_right hnothing _)

-- Nothing has been done with the byte.
structure Untouched (s : Tracked) : Prop where
  store : s.store.countP Traced.current = 0
  deeds : s.deeds = []

end Tracked

-- What a turn may do with a byte: nothing if it passes it on, and otherwise no more than to store
-- it, to show it and to write it, each of them once and in this order
inductive TrackedTurn.Sparing : TrackedTurn → Prop
  | settled {outcome : Outcome Tracked}
      (h : outcome.state.deeds <+ [.stored, .shown, .written]) : Sparing (.settled outcome)
  | again {s : Tracked} (h : s.Untouched) : Sparing (.again s)

namespace Tracked

variable {s : Tracked} {t : Terminal}

theorem Untouched.done (h : s.Untouched) : (TrackedTurn.done s).Sparing := by
  refine .settled ?_
  rw [h.deeds]
  exact List.nil_sublist _

theorem Untouched.change (h : s.Untouched) (f : Terminal → Terminal) : (s.change f).Untouched :=
  ⟨h.store, h.deeds⟩

theorem Untouched.enter (h : s.Untouched) (phase : Phase) : (s.enter phase).Untouched :=
  ⟨rfl, h.deeds⟩

theorem Untouched.abandon (h : s.Untouched) : s.abandon.Untouched := by
  refine ⟨?_, ?_⟩
  · unfold Tracked.abandon
    split <;> rfl
  · have hdeeds := s.deeds_abandon
    rw [h.deeds, h.store] at hdeeds
    exact List.sublist_nil.mp hdeeds

theorem Untouched.deeds_hold (h : s.Untouched) (byte : UInt8)
    (room : s.terminal.held.cursor < s.terminal.held.capacity) :
    (s.hold ⟨byte, true⟩ room).deeds = [.stored] := by
  rw [Tracked.deeds_hold, h.deeds]
  rfl

theorem Untouched.beginSequence (h : s.Untouched) :
    (TrackedTurn.done (s.beginSequence true)).Sparing := by
  have hdeeds : (s.beginSequence true).deeds = [.stored] :=
    (h.enter .collecting).deeds_hold Byte.escape s.terminal.held.capacity_pos
  refine .settled ?_
  rw [hdeeds]
  decide

-- The ESC that a title has been left with is not the byte.
theorem Untouched.beginSequence_old (h : s.Untouched) : (s.beginSequence false).Untouched :=
  ⟨rfl, (List.append_nil _).trans h.deeds⟩

theorem Untouched.deeds_forwardByte (h : s.Untouched) (byte : UInt8) :
    (s.forwardByte byte).deeds <+ [.stored, .shown, .written] := by
  have hshown := Tracked.deeds_forwardByte s byte
  rw [h.deeds] at hshown
  exact hshown.trans (by decide)

theorem Untouched.plain (h : s.Untouched) (byte : UInt8) :
    (TrackedTurn.settled (s.plain byte)).Sparing := by
  have hplain := deeds_plain s byte
  rw [h.deeds] at hplain
  exact .settled (hplain.trans (by decide))

theorem Untouched.forwardHeld (h : s.Untouched) : s.forwardHeld.Untouched := by
  have hstore : s.forwardHeld.store = s.store := s.store_emit _
  have hdeeds := s.deeds_forwardHeld
  rw [h.deeds, h.store] at hdeeds
  exact ⟨hstore ▸ h.store, List.sublist_nil.mp hdeeds⟩

theorem Untouched.outgrow (h : s.Untouched) : s.outgrow.Untouched :=
  (h.change _).forwardHeld.change _

theorem Untouched.collect (h : s.Untouched) (hfollows : s.Follows t) (straight : t.held.Straight)
    (byte : UInt8) : (s.collect byte).Sparing := by
  have hlength := hfollows.length_store
  have hend : s.terminal.held.cursor = s.store.length := by
    rw [hlength, hfollows.terminal, straight.cursor]
  unfold Tracked.collect
  split
  · exact h.abandon.beginSequence
  split
  · -- the cursor of the store is at its end, and there the byte goes
    rename_i room
    have hstore : (s.hold ⟨byte, true⟩ room).store = s.store ++ [⟨byte, true⟩] := by
      simp only [hold, Traced.put, hend, List.take_length,
        List.drop_eq_nil_of_le (Nat.le_succ _)]
    have hsize : s.store.length = (s.hold ⟨byte, true⟩ room).terminal.held.size - 1 := by
      rw [← hfollows.terminal] at hlength
      simp only [hold, ByteRing.put]
      omega
    have hcomplete := deeds_complete hstore h.store hsize
      (Sequence.scan (s.hold ⟨byte, true⟩ room).terminal.heldBytes)
    rw [h.deeds_hold] at hcomplete
    exact .settled hcomplete
  · exact .again h.outgrow

theorem Untouched.passThrough (h : s.Untouched) (byte : UInt8) : (s.passThrough byte).Sparing := by
  have hshown := h.deeds_forwardByte byte
  unfold Tracked.passThrough
  split
  · exact .settled hshown
  split
  · refine .settled ?_
    dsimp only
    split <;> exact hshown
  · exact .again (h.enter .normal)

theorem Untouched.turn (h : s.Untouched) (hfollows : s.Follows t) (straight : t.held.Straight)
    (byte : UInt8) : (s.turn byte).Sparing := by
  have hturns := s.turns_turn byte
  generalize s.turn byte = turn at hturns ⊢
  cases hturns with
  | passed f => exact (h.change f).done
  | shown f => exact .settled (h.deeds_forwardByte byte)
  | abandoned f => exact .settled (h.abandon.deeds_forwardByte byte)
  | begun => exact h.beginSequence
  | text => exact h.plain byte
  | held => exact h.collect hfollows straight byte
  | heldAnew =>
      exact h.beginSequence_old.collect (hfollows.beginSequence false)
        (straight.clear.put Byte.escape t.held.capacity_pos) byte
  | overlong => exact h.passThrough byte

-- What passes a byte on has done nothing with it, so that the last turn is the only one that does.
theorem Handles.deeds {byte : UInt8} {phases : List Phase} {outcome : Outcome Tracked}
    (h : Handles byte s phases outcome) (hfollows : s.Follows t) (straight : t.held.Straight)
    (untouched : s.Untouched) : outcome.state.deeds <+ [.stored, .shown, .written] := by
  induction h generalizing t with
  | last hturn =>
      have hsparing := untouched.turn hfollows straight byte
      rw [hturn] at hsparing
      cases hsparing with
      | settled hdeeds => exact hdeeds
  | nested hturn h ih =>
      have hsparing := untouched.turn hfollows straight byte
      rw [hturn] at hsparing
      obtain ⟨next, hpasses, hnext⟩ := hfollows.again hturn
      cases hsparing with
      | again hnone => exact ih hnext (hpasses.straight straight) hnone

theorem untouched_ofTerminal (t : Terminal) : (ofTerminal t).Untouched :=
  ⟨Traced.countP_old _, rfl⟩

-- A byte is read three times at most, whatever state the terminal is in: only a sequence that
-- outgrows its store passes it on, and only the rest of such a sequence passes it on again. In any
-- state there is between bytes, all these readings together store it, show it and write it no more
-- than once each. That counts all of it that gets into the store, to the viewers or into the line.
theorem handles_once (t : Terminal) (modes : Modes) (byte : UInt8) (roomy : 8 ≤ t.held.capacity) :
    let start := ofTerminal { t with modes }
    (∃ phases outcome, Handles byte start phases outcome) ∧
    ∀ phases outcome, Handles byte start phases outcome →
      Ends outcome (({ t with modes } : Terminal).step byte) ∧ phases.head? = some t.phase ∧
      phases.length ≤ 3 ∧ phases.IsChain Phase.PassesOn ∧ outcome.state.Accounted ∧
      ∀ config, t.BetweenBytes config → outcome.state.deeds.count .written ≤ 1 ∧
        outcome.state.deeds.count .stored ≤ 1 ∧ outcome.state.deeds.count .shown ≤ 1 := by
  intro start
  have hfollows : start.Follows { t with modes } := follows_ofTerminal _
  refine ⟨hfollows.exists_handles byte, fun phases outcome h => ?_⟩
  obtain ⟨hhead, hchain⟩ := h.chain hfollows roomy
  have hlength := Phase.PassesOn.length_le hchain
  refine ⟨h.ends hfollows hlength, hhead, hlength, hchain,
    h.accounted (accounted_ofTerminal _), fun config hbetween => ?_⟩
  have hdeeds := h.deeds hfollows hbetween.sound.straight (untouched_ofTerminal _)
  exact ⟨hdeeds.count_le _, hdeeds.count_le _, hdeeds.count_le _⟩

theorem ne_of_escape_lt {byte : UInt8} (h : Byte.escape < byte) : byte ≠ Byte.carriageReturn ∧
    byte ≠ Byte.backspace ∧ byte ≠ Byte.bel ∧ byte ≠ Byte.escape := by
  have hlow {other : UInt8} (hother : ¬ Byte.escape < other) : byte ≠ other :=
    fun heq => hother (heq ▸ h)
  exact ⟨hlow (by decide), hlow (by decide), hlow (by decide), hlow (by decide)⟩

-- All three readings are there for a byte that belongs to no sequence, behind one that fills its
-- store.
theorem handles_outgrown {byte : UInt8} (hphase : s.terminal.phase = .collecting)
    (hfull : s.terminal.held.capacity ≤ s.terminal.held.cursor) (hbyte : 0x7f ≤ byte) :
    Handles byte s [.collecting, .overlong, .normal] (s.outgrow.toNormal.plain byte) := by
  obtain ⟨hreturn, hback, hbel, hescape⟩ :=
    ne_of_escape_lt (UInt8.lt_of_lt_of_le (by decide : Byte.escape < 0x7f) hbyte)
  have hparameter : ¬ (0x20 ≤ byte ∧ byte ≤ 0x3f) := fun h =>
    absurd (UInt8.le_trans hbyte h.2) (by decide)
  have hfinal : ¬ (0x40 ≤ byte ∧ byte ≤ 0x7e) := fun h =>
    absurd (UInt8.le_trans hbyte h.2) (by decide)
  have houtgrown : s.turn byte = .again s.outgrow := by
    simp only [turn, hreturn, hback, hbel, hphase, collect, hescape, ite_false,
      dif_neg (Nat.not_lt.mpr hfull)]
  have hended : s.outgrow.turn byte = .again s.outgrow.toNormal := by
    have hnext : s.outgrow.terminal.phase = .overlong := rfl
    simp only [turn, hreturn, hback, hbel, ite_false, hnext, passThrough, hparameter, hfinal]
  have htext : s.outgrow.toNormal.turn byte = .settled (s.outgrow.toNormal.plain byte) := by
    have hnext : s.outgrow.toNormal.terminal.phase = .normal := rfl
    simp only [turn, hreturn, hback, hbel, hescape, ite_false, hnext]
  exact hphase ▸ .nested houtgrown (.nested hended (.last htext))

-- A byte that there is room for is settled at once, also where no sequence goes on with it.
theorem handles_collected {byte : UInt8} (hphase : s.terminal.phase = .collecting)
    (room : s.terminal.held.cursor < s.terminal.held.capacity) (hbyte : Byte.escape < byte) :
    Handles byte s [.collecting] ((s.hold ⟨byte, true⟩ room).complete byte
      (Sequence.scan (s.hold ⟨byte, true⟩ room).terminal.heldBytes)) := by
  obtain ⟨hreturn, hback, hbel, hescape⟩ := ne_of_escape_lt hbyte
  have hsettled : s.turn byte = .settled ((s.hold ⟨byte, true⟩ room).complete byte
      (Sequence.scan (s.hold ⟨byte, true⟩ room).terminal.heldBytes)) := by
    simp only [turn, hreturn, hback, hbel, hphase, collect, hescape, ite_false, dif_pos room]
  exact hphase ▸ .last hsettled

-- Eight bytes of a sequence in a store of eight, and a byte of text behind them; and the same byte
-- behind a sequence that has room for it
theorem handles_once_outgrown :
    let config : Config := { escapeCapacity := 8 }
    let full := ((Terminal.ofConfig config).cleared.interpret
      [0x1b, 0x5b, 0x31, 0x3b, 0x32, 0x3b, 0x33, 0x3b]).state
    let unfinished := ((Terminal.ofConfig config).cleared.interpret [0x1b, 0x5b, 0x31]).state
    let modes : Modes := { appCursor := true }
    (8 ≤ full.held.capacity ∧ full.BetweenBytes config ∧ ∃ outcome,
      Handles 0xe9 (ofTerminal { full with modes }) [.collecting, .overlong, .normal] outcome ∧
      Ends outcome (({ full with modes } : Terminal).step 0xe9) ∧ outcome.state.Accounted ∧
      outcome.state.deeds = [.shown, .written] ∧ outcome.state.deeds.count .shown ≤ 1) ∧
    8 ≤ unfinished.held.capacity ∧ unfinished.BetweenBytes config ∧ ∃ outcome,
      Handles 0xe9 (ofTerminal { unfinished with modes }) [.collecting] outcome ∧
      Ends outcome (({ unfinished with modes } : Terminal).step 0xe9) ∧ outcome.state.Accounted ∧
      outcome.state.deeds = [.stored, .shown, .written] ∧
      outcome.state.deeds.count .stored ≤ 1 := by
  intro config full unfinished modes
  refine ⟨?_, ?_⟩
  · have roomy : 8 ≤ full.held.capacity := by decide +kernel
    have hbetween : full.BetweenBytes config :=
      .byte .start [0x1b, 0x5b, 0x31, 0x3b, 0x32, 0x3b, 0x33, 0x3b]
    have hphase : (ofTerminal { full with modes }).terminal.phase = .collecting := by
      decide +kernel
    have hfull : (ofTerminal { full with modes }).terminal.held.capacity ≤
        (ofTerminal { full with modes }).terminal.held.cursor := by decide +kernel
    obtain ⟨outcome, h, hdeeds⟩ : ∃ outcome, Handles 0xe9 (ofTerminal { full with modes })
        [.collecting, .overlong, .normal] outcome ∧ outcome.state.deeds = [.shown, .written] :=
      ⟨_, handles_outgrown hphase hfull (by decide), by decide +kernel⟩
    obtain ⟨hends, -, -, -, haccounted, hcounts⟩ := (handles_once full modes 0xe9 roomy).2 _ _ h
    obtain ⟨-, -, hshown⟩ := hcounts config hbetween
    exact ⟨roomy, hbetween, outcome, h, hends, haccounted, hdeeds, hshown⟩
  · have roomy : 8 ≤ unfinished.held.capacity := by decide +kernel
    have hbetween : unfinished.BetweenBytes config := .byte .start [0x1b, 0x5b, 0x31]
    have hphase : (ofTerminal { unfinished with modes }).terminal.phase = .collecting := by
      decide +kernel
    obtain ⟨outcome, h, hdeeds⟩ : ∃ outcome,
        Handles 0xe9 (ofTerminal { unfinished with modes }) [.collecting] outcome ∧
        outcome.state.deeds = [.stored, .shown, .written] :=
      ⟨_, handles_collected hphase (by decide +kernel) (by decide), by decide +kernel⟩
    obtain ⟨hends, -, -, -, haccounted, hcounts⟩ :=
      (handles_once unfinished modes 0xe9 roomy).2 _ _ h
    obtain ⟨-, hstored, -⟩ := hcounts config hbetween
    exact ⟨roomy, hbetween, outcome, h, hends, haccounted, hdeeds, hstored⟩

end Tracked

end TerminalRelay
