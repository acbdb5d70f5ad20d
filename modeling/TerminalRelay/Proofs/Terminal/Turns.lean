import TerminalRelay.Proofs.ByteRing.Content
import TerminalRelay.Terminal.Feed

namespace TerminalRelay

-- From which phase to which other a byte is passed on, where there is room for a sequence to begin
inductive Phase.PassesOn : Phase → Phase → Prop
  | outgrown : PassesOn .collecting .overlong
  | ended : PassesOn .overlong .normal

-- A byte that is passed on twice stays where it is then.
theorem Phase.PassesOn.length_le {phases : List Phase} (h : phases.IsChain Phase.PassesOn) :
    phases.length ≤ 3 := by
  match phases, h with
  | [], _ | [_], _ | [_, _], _ | [_, _, _], _ => simp
  | _ :: _ :: _ :: _ :: _, .cons_cons hfirst (.cons_cons hsecond (.cons_cons hthird _)) =>
      cases hfirst with
      | outgrown => cases hsecond with
        | ended => nomatch hthird
      | ended => nomatch hsecond

-- How often a byte can be read again that comes in this phase
def Phase.rereads : Phase → Nat
  | normal => 0
  | collecting => 2
  | title sawEscape => if sawEscape then 2 else 0
  | overlong => 1

namespace Terminal

variable {t next : Terminal} {byte : UInt8}

-- The sequence goes on without a store; what it held is shown as it is.
def outgrow (t : Terminal) : Terminal :=
  { (t.note (.sequenceTooLong t.held.size)).forwardHeld with phase := .overlong }

-- Where a byte is read again: the store had no room for it, or no sequence had a place for it. The
-- sequence that cuts a title short has outgrown its store at once only if that holds one byte.
inductive PassesOn (t : Terminal) : Terminal → Prop
  | outgrown (hphase : t.phase = .collecting) (hfull : t.held.capacity ≤ t.held.cursor) :
      PassesOn t t.outgrow
  | outgrownTitle (hphase : t.phase = .title true) (hfull : t.held.capacity ≤ 1) :
      PassesOn t t.beginSequence.outgrow
  | ended (hphase : t.phase = .overlong) : PassesOn t t.toNormal

theorem held_emit (t : Terminal) (items : List Transport.Item) : (t.emit items).held = t.held := by
  unfold emit
  split <;> rfl

theorem held_outgrow (t : Terminal) : t.outgrow.held = t.held :=
  held_emit (t.note (.sequenceTooLong t.held.size)) _

theorem capacity_beginSequence (t : Terminal) :
    t.beginSequence.held.capacity = t.held.capacity :=
  ByteRing.capacity_put t.held.clear Byte.escape t.held.capacity_pos

theorem complete_ne_again (t next : Terminal) (byte : UInt8) (scan : Scan) :
    t.complete byte scan ≠ .again next := by
  cases scan with
  | unknown =>
      rw [complete]
      split <;> simp [Turn.done]
  | pending => simp [complete, Turn.done]
  | title => simp [complete, Turn.done]
  | known action => simp [complete, Turn.done]
  | aborted => simp [complete]

theorem collect_eq_again (h : t.collect byte = .again next) :
    t.held.capacity ≤ t.held.cursor ∧ next = t.outgrow := by
  unfold collect at h
  split at h
  · cases h
  split at h
  · exact absurd h (complete_ne_again _ _ _ _)
  · cases h
    exact ⟨Nat.le_of_not_lt ‹_›, rfl⟩

theorem passThrough_eq_again (h : t.passThrough byte = .again next) : next = t.toNormal := by
  unfold passThrough at h
  split at h
  · cases h
  split at h <;> cases h
  rfl

theorem turn_eq_again (h : t.turn byte = .again next) : t.PassesOn next := by
  unfold turn at h
  split at h
  · cases h
  split at h
  · split at h <;> cases h
  split at h
  · split at h <;> cases h
  cases hphase : t.phase with
  | normal =>
      rw [hphase] at h
      dsimp only at h
      split at h <;> cases h
  | collecting =>
      rw [hphase] at h
      obtain ⟨hfull, rfl⟩ := collect_eq_again h
      exact .outgrown hphase hfull
  | title sawEscape =>
      rw [hphase] at h
      cases sawEscape with
      | false => cases h
      | true =>
          dsimp only at h
          split at h
          · cases h
          · obtain ⟨hfull, rfl⟩ := collect_eq_again h
            rw [capacity_beginSequence] at hfull
            exact .outgrownTitle hphase hfull
  | overlong =>
      rw [hphase] at h
      obtain rfl := passThrough_eq_again h
      exact .ended hphase

-- A byte is read again in phases that allow it less and less often.
theorem PassesOn.rereads (h : t.PassesOn next) : next.phase.rereads < t.phase.rereads := by
  cases h with
  | outgrown hphase hfull =>
      rw [hphase]
      exact Nat.one_lt_two
  | outgrownTitle hphase hfull =>
      rw [hphase]
      exact Nat.one_lt_two
  | ended hphase =>
      rw [hphase]
      exact Nat.one_pos

theorem PassesOn.capacity (h : t.PassesOn next) : next.held.capacity = t.held.capacity := by
  cases h with
  | outgrown hphase hfull => rw [held_outgrow]
  | outgrownTitle hphase hfull => rw [held_outgrow, capacity_beginSequence]
  | ended hphase => rfl

theorem PassesOn.straight (h : t.PassesOn next) (straight : t.held.Straight) :
    next.held.Straight := by
  cases h with
  | outgrown hphase hfull =>
      rw [held_outgrow]
      exact straight
  | outgrownTitle hphase hfull =>
      rw [held_outgrow]
      exact straight.clear.put Byte.escape t.held.capacity_pos
  | ended hphase => exact straight.clear

theorem PassesOn.phase (h : t.PassesOn next) (roomy : 8 ≤ t.held.capacity) :
    t.phase.PassesOn next.phase := by
  cases h with
  | outgrown hphase hfull =>
      rw [hphase]
      exact .outgrown
  | outgrownTitle hphase hfull => omega
  | ended hphase =>
      rw [hphase]
      exact .ended

end Terminal

end TerminalRelay
