import TerminalRelay.Byte
import TerminalRelay.Proofs.ByteRing.Content

namespace TerminalRelay

namespace ByteRing

-- What is done to a ring, as data
inductive Operation where
  | put (byte : UInt8)
  | moveTo (position : Nat)
  | truncate (position : Nat)
  | set (i : Nat) (byte : UInt8)
  | remove (position count : Nat)
  | clear
  | clearOnward
  | reset
deriving DecidableEq, Repr

inductive Reply where
  | done
  | refused (refusal : Refusal)
  -- whether there was a byte to replace
  | replaced (found : Bool)
deriving DecidableEq, Repr

def perform (ring : ByteRing) : Operation → ByteRing × Reply
  | .put byte =>
    match ring.put? byte with
    | .ok ring => (ring, .done)
    | .error refusal => (ring, .refused refusal)
  | .moveTo position => (ring.moveTo position, .done)
  | .truncate position => (ring.truncate position, .done)
  | .set i byte => (ring.set i byte, .replaced (ring.get? i).isSome)
  | .remove position count => (ring.remove position count, .done)
  | .clear => (ring.clear, .done)
  | .clearOnward => (ring.clearOnward, .done)
  | .reset => (ring.reset, .done)

-- Operations one after the other, whatever is answered to them
def performAll (ring : ByteRing) : List Operation → ByteRing × List Reply
  | [] => (ring, [])
  | operation :: rest =>
    let (ring, reply) := ring.perform operation
    let (ring, replies) := ring.performAll rest
    (ring, reply :: replies)

end ByteRing

-- Bytes in a row and a cursor among them or behind them: what a ring stands for, wherever in its
-- cells the row begins
structure Tape where
  bytes : Bytes
  cursor : Nat
deriving DecidableEq, Repr

namespace Tape

open ByteRing (Operation Reply)

def blank : Tape := ⟨[], 0⟩

-- Other bytes, with the cursor where it was, or at their end if they do not reach so far
def rewrite (tape : Tape) (bytes : Bytes) : Tape :=
  ⟨bytes, min tape.cursor bytes.length⟩

-- On a tape with room for `capacity` bytes
def perform (capacity : Nat) (tape : Tape) : Operation → Tape × Reply
  | .put byte =>
    if tape.cursor = capacity then (tape, .refused (.full capacity))
    else
      (⟨tape.bytes.take tape.cursor ++ byte :: tape.bytes.drop (tape.cursor + 1),
        tape.cursor + 1⟩, .done)
  | .moveTo position => ({ tape with cursor := min position tape.bytes.length }, .done)
  | .truncate position => (tape.rewrite (tape.bytes.take position), .done)
  | .set i byte =>
    if i < tape.bytes.length then
      ({ tape with bytes := tape.bytes.set i byte }, .replaced true)
    else (tape, .replaced false)
  | .remove position count =>
    (tape.rewrite (tape.bytes.take position ++ tape.bytes.drop (position + count)), .done)
  | .clear | .clearOnward | .reset => (blank, .done)

def performAll (capacity : Nat) (tape : Tape) : List Operation → Tape × List Reply
  | [] => (tape, [])
  | operation :: rest =>
    let (tape, reply) := tape.perform capacity operation
    let (tape, replies) := tape.performAll capacity rest
    (tape, reply :: replies)

end Tape

namespace ByteRing

variable {ring left right : ByteRing} {operation : Operation}

def tape (ring : ByteRing) : Tape := ⟨ring.toList, ring.cursor⟩

theorem get?_eq (ring : ByteRing) (i : Nat) : ring.get? i = ring.toList[i]? := by
  unfold get?
  by_cases hi : i < ring.size
  · have hlength : i < ring.toList.length := by rwa [length_toList]
    rw [if_pos hi, List.getElem?_eq_getElem hlength, getElem_toList]
  · rw [if_neg hi, List.getElem?_eq_none (by rw [length_toList]; omega)]

-- A cursor never stands beyond the capacity, so that only one at the capacity finds no room.
theorem room_iff (ring : ByteRing) : ring.cursor < ring.capacity ↔ ring.cursor ≠ ring.capacity := by
  have hcursor := ring.cursor_le
  have hsize := ring.size_le_capacity
  omega

theorem perform_put (ring : ByteRing) (byte : UInt8) : ring.perform (.put byte) =
    if room : ring.cursor < ring.capacity then (ring.put byte room, .done)
    else (ring, .refused (.full ring.capacity)) := by
  unfold perform put?
  by_cases room : ring.cursor < ring.capacity
  · simp only [dif_pos room]
  · simp only [dif_neg room]

theorem truncate_cursor (ring : ByteRing) (position : Nat) : (ring.truncate position).cursor =
    min ring.cursor (ring.toList.take position).length := by
  have hcursor := ring.cursor_le
  rw [List.length_take, length_toList]
  change min ring.cursor position = _
  omega

theorem remove_cursor_length (ring : ByteRing) (position count : Nat) :
    (ring.remove position count).cursor = min ring.cursor
      (ring.toList.take position ++ ring.toList.drop (position + count)).length := by
  have hcursor := ring.cursor_le
  rw [remove_cursor, List.length_append, List.length_take, List.length_drop, length_toList]
  omega

-- The ring does with its cells what the tape does with its list.
theorem tape_perform (ring : ByteRing) (operation : Operation) :
    ((ring.perform operation).1.tape, (ring.perform operation).2) =
      ring.tape.perform ring.capacity operation := by
  cases operation with
  | put byte =>
      rw [perform_put]
      by_cases hfull : ring.cursor = ring.capacity
      · have hroom : ¬ ring.cursor < ring.capacity := fun h => ring.room_iff.mp h hfull
        have hcursor : ring.tape.cursor = ring.capacity := hfull
        rw [dif_neg hroom, Tape.perform, if_pos hcursor]
      · have hroom := ring.room_iff.mpr hfull
        have hcursor : ring.tape.cursor ≠ ring.capacity := hfull
        rw [dif_pos hroom, Tape.perform, if_neg hcursor]
        simp only [tape, toList_put]
        rfl
  | moveTo position => simp only [perform, Tape.perform, tape, length_toList]; rfl
  | truncate position =>
      simp only [perform, Tape.perform, tape, Tape.rewrite, toList_truncate, truncate_cursor]
  | set i byte =>
      simp only [perform, Tape.perform, get?_eq]
      by_cases hi : i < ring.toList.length
      · have hsize : i < ring.size := by rwa [← length_toList]
        have hlength : i < ring.tape.bytes.length := hi
        rw [if_pos hlength, List.getElem?_eq_getElem hi, ByteRing.set, if_pos hsize]
        simp only [tape, toList_setCell ring i byte hsize]
        rfl
      · have hsize : ¬ i < ring.size := by rwa [← length_toList]
        have hlength : ¬ i < ring.tape.bytes.length := hi
        rw [if_neg hlength, List.getElem?_eq_none (Nat.le_of_not_lt hi), ByteRing.set,
          if_neg hsize]
        rfl
  | remove position count =>
      simp only [perform, Tape.perform, tape, Tape.rewrite, toList_remove, remove_cursor_length]
  | clear => simp only [perform, Tape.perform, tape, toList_clear]; rfl
  | clearOnward => simp only [perform, Tape.perform, tape, toList_clearOnward]; rfl
  | reset => simp only [perform, Tape.perform, tape, toList_reset]; rfl

theorem capacity_perform (ring : ByteRing) (operation : Operation) :
    (ring.perform operation).1.capacity = ring.capacity := by
  cases operation with
  | put byte =>
      rw [perform_put]
      split
      · exact capacity_put _ _ ‹_›
      · rfl
  | set i byte =>
      simp only [perform, ByteRing.set]
      split
      · simp [capacity, setCell]
      · rfl
  | remove position count => exact capacity_remove ring position count
  | _ => rfl

theorem tape_performAll (ring : ByteRing) (operations : List Operation) :
    ((ring.performAll operations).1.tape, (ring.performAll operations).2) =
      ring.tape.performAll ring.capacity operations ∧
    (ring.performAll operations).1.capacity = ring.capacity := by
  induction operations generalizing ring with
  | nil => exact ⟨rfl, rfl⟩
  | cons operation rest ih =>
      obtain ⟨hrest, hcapacity⟩ := ih (ring.perform operation).1
      have hstep := ring.tape_perform operation
      have hkept := ring.capacity_perform operation
      rw [hkept] at hrest hcapacity
      refine ⟨?_, hcapacity⟩
      simp only [performAll, Tape.performAll, ← hstep, ← hrest]

-- All that can be read of a ring, when it stands for a tape
structure StandsFor (ring : ByteRing) (capacity : Nat) (tape : Tape) : Prop where
  capacity_eq : ring.capacity = capacity
  start_lt : ring.start < capacity
  length_le : tape.bytes.length ≤ capacity
  cursor_le : tape.cursor ≤ tape.bytes.length
  cursor_eq : ring.cursor = tape.cursor
  size_eq : ring.size = tape.bytes.length
  isEmpty_eq : ring.isEmpty = tape.bytes.isEmpty
  get?_eq : ∀ i, ring.get? i = tape.bytes[i]?
  toList_eq : ring.toList = tape.bytes
  slices_eq : ring.slices.1 ++ ring.slices.2 = tape.bytes

theorem standsFor_tape (ring : ByteRing) : ring.StandsFor ring.capacity ring.tape where
  capacity_eq := rfl
  start_lt := ring.start_lt_capacity
  length_le := by
    have hsize := ring.size_le_capacity
    rwa [← length_toList] at hsize
  cursor_le := by
    have hcursor := ring.cursor_le
    rwa [← length_toList] at hcursor
  cursor_eq := rfl
  size_eq := ring.length_toList.symm
  isEmpty_eq := by
    rw [Bool.eq_iff_iff, isEmpty_iff, List.isEmpty_iff]
    rfl
  get?_eq := ring.get?_eq
  toList_eq := rfl
  slices_eq := rfl

theorem standsFor_performAll (ring : ByteRing) (operations : List Operation) :
    (ring.performAll operations).1.StandsFor ring.capacity
      (ring.tape.performAll ring.capacity operations).1 ∧
    (ring.performAll operations).2 = (ring.tape.performAll ring.capacity operations).2 := by
  obtain ⟨hrun, hcapacity⟩ := ring.tape_performAll operations
  have hstands := (ring.performAll operations).1.standsFor_tape
  rw [hcapacity] at hstands
  exact ⟨congrArg Prod.fst hrun ▸ hstands, congrArg Prod.snd hrun⟩

-- The answers that say that nothing was done
def Reply.isNo : Reply → Bool
  | done => false
  | refused _ => true
  | replaced found => !found

-- Nothing is what was done then: not even a cell has changed.
theorem perform_of_isNo (h : (ring.perform operation).2.isNo = true) :
    (ring.perform operation).1 = ring := by
  cases operation with
  | put byte =>
      rw [perform_put] at h ⊢
      by_cases room : ring.cursor < ring.capacity
      · rw [dif_pos room] at h
        exact absurd h (by simp [Reply.isNo])
      · rw [dif_neg room]
  | set i byte =>
      simp only [perform, ByteRing.set, get?] at h ⊢
      by_cases hi : i < ring.size
      · rw [if_pos hi] at h
        exact absurd h (by simp [Reply.isNo])
      · rw [if_neg hi]
  | _ => exact absurd h (by simp [perform, Reply.isNo])

theorem tape_empty (capacity : Nat) (positive : 0 < capacity) :
    (empty capacity positive).tape = Tape.blank := by
  rw [tape, toList_empty]
  rfl

theorem capacity_empty (capacity : Nat) (positive : 0 < capacity) :
    (empty capacity positive).capacity = capacity :=
  Array.size_replicate

-- Whatever is done to a ring, it stands for the tape to which the same is done, and answers what
-- the tape answers. Where its content lies and what the other cells hold is never seen, so that two
-- rings that stand for one tape go on alike.
theorem performAll_tape (capacity : Nat) (positive : 0 < capacity) :
    (∀ operations,
      ((empty capacity positive).performAll operations).1.StandsFor capacity
        (Tape.blank.performAll capacity operations).1 ∧
      ((empty capacity positive).performAll operations).2 =
        (Tape.blank.performAll capacity operations).2) ∧
    (∀ (ring : ByteRing) (operation : Operation),
      (ring.perform operation).2.isNo = true → (ring.perform operation).1 = ring) ∧
    ∀ left right : ByteRing, left.capacity = capacity → right.capacity = capacity →
      left.toList = right.toList → left.cursor = right.cursor → ∀ operations,
        (left.performAll operations).2 = (right.performAll operations).2 ∧
        ∃ tape, (left.performAll operations).1.StandsFor capacity tape ∧
          (right.performAll operations).1.StandsFor capacity tape := by
  refine ⟨?_, fun ring operation h => perform_of_isNo h, ?_⟩
  · intro operations
    have hrun := (empty capacity positive).standsFor_performAll operations
    rwa [tape_empty, capacity_empty] at hrun
  · intro left right hleft hright hbytes hcursor operations
    have htape : left.tape = right.tape := by rw [tape, tape, hbytes, hcursor]
    obtain ⟨hstands, hreplies⟩ := left.standsFor_performAll operations
    obtain ⟨hstands', hreplies'⟩ := right.standsFor_performAll operations
    rw [hleft, htape] at hstands hreplies
    rw [hright] at hstands' hreplies'
    exact ⟨hreplies.trans hreplies'.symm, _, hstands, hstands'⟩

-- Two rings of three cells that hold the same two bytes, one of them around the end of its cells:
-- a byte is taken out, another put where it is refused at first, and one sought in vain.
theorem performAll_tape_wrapped :
    let fresh := empty 3 (by decide)
    let left := (fresh.performAll [.put 1, .put 2, .clearOnward, .put 7, .put 8]).1
    let right := (fresh.performAll [.put 7, .put 8]).1
    let later : List Operation :=
      [.put 9, .put 5, .remove 1 1, .put 5, .set 3 0, .moveTo 0, .put 6]
    (left.start = 2 ∧ right.start = 0) ∧
    (left.performAll later).2 = (right.performAll later).2 ∧
    (left.performAll later).2 =
      [.done, .refused (.full 3), .done, .done, .replaced false, .done, .done] ∧
    (left.performAll later).1.tape = ⟨[6, 9, 5], 1⟩ := by
  intro fresh left right later
  obtain ⟨-, -, halike⟩ := performAll_tape 3 (by decide)
  obtain ⟨hreplies, -⟩ := halike left right (by decide +kernel) (by decide +kernel)
    (by decide +kernel) (by decide +kernel) later
  exact ⟨by decide +kernel, hreplies, by decide +kernel, by decide +kernel⟩

end ByteRing

end TerminalRelay
