import TerminalRelay.ByteRing.Basic
import Mathlib.Data.List.Basic

namespace TerminalRelay.ByteRing

-- One comparison settles on which side of the wrap an offset lies.
theorem slot_val (ring : ByteRing) (i : Nat) (hi : i < ring.capacity) :
    (ring.slot i).val =
      if ring.start + i < ring.capacity then ring.start + i
      else ring.start + i - ring.capacity := by
  have hs := ring.start_lt
  unfold capacity at *
  change (ring.start + i) % ring.cells.size = _
  split
  · exact Nat.mod_eq_of_lt ‹_›
  · rw [Nat.mod_eq_sub_mod (by omega), Nat.mod_eq_of_lt (by omega)]

theorem slot_injective (ring : ByteRing) (i j : Nat) (hi : i < ring.capacity)
    (hj : j < ring.capacity) (hij : (ring.slot i).val = (ring.slot j).val) : i = j := by
  have hs := ring.start_lt
  rw [slot_val ring i hi, slot_val ring j hj] at hij
  unfold capacity at *
  split at hij <;> split at hij <;> omega

@[simp] theorem length_toList (ring : ByteRing) : ring.toList.length = ring.size := by
  have hs := ring.start_lt
  have hz := ring.size_le
  simp only [toList, slices, capacity, List.length_append, Array.length_toList,
    Array.size_extract]
  omega

theorem isEmpty_iff (ring : ByteRing) : ring.isEmpty = true ↔ ring.toList = [] := by
  rw [isEmpty, beq_iff_eq, ← length_toList, List.length_eq_zero_iff]

theorem size_le_capacity (ring : ByteRing) : ring.size ≤ ring.capacity :=
  ring.size_le

theorem start_lt_capacity (ring : ByteRing) : ring.start < ring.capacity :=
  ring.start_lt

theorem getElem_toList (ring : ByteRing) (i : Nat) (hi : i < ring.toList.length) :
    ring.toList[i] = getElem ring.cells (ring.slot i) (ring.slot i).isLt := by
  have hs := ring.start_lt
  have hz := ring.size_le
  rw [length_toList] at hi
  have hslot := slot_val ring i (by unfold capacity; omega)
  simp only [Fin.getElem_fin, hslot]
  simp only [toList, slices, capacity] at hslot ⊢
  by_cases hwrap : ring.start + i < ring.cells.size
  · rw [List.getElem_append_left (by
      simp only [Array.length_toList, Array.size_extract]; omega)]
    simp only [hwrap, ite_true, Array.getElem_toList, Array.getElem_extract]
  · rw [List.getElem_append_right (by
      simp only [Array.length_toList, Array.size_extract]; omega)]
    simp only [hwrap, ite_false, Array.getElem_toList, Array.getElem_extract]
    congr 1
    simp only [Array.length_toList, Array.size_extract]
    omega

-- Two rings hold the same bytes as soon as they hold as many and agree on each offset.
theorem toList_eq_of_cells (ring : ByteRing) (bytes : List UInt8)
    (hsize : bytes.length = ring.size)
    (hcells : ∀ i (hi : i < bytes.length),
      getElem ring.cells (ring.slot i) (ring.slot i).isLt = bytes[i]) :
    ring.toList = bytes := by
  apply List.ext_getElem (by simp [hsize])
  intro i hi hi'
  rw [getElem_toList ring i hi, hcells i hi']

@[simp] theorem toList_empty (capacity : Nat) (positive : 0 < capacity) :
    (empty capacity positive).toList = [] := by
  apply List.eq_nil_of_length_eq_zero
  rw [length_toList]
  rfl

@[simp] theorem toList_clear (ring : ByteRing) : ring.clear.toList = [] := by
  apply List.eq_nil_of_length_eq_zero
  rw [length_toList]
  rfl

@[simp] theorem toList_clearOnward (ring : ByteRing) : ring.clearOnward.toList = [] := by
  apply List.eq_nil_of_length_eq_zero
  rw [length_toList]
  rfl

@[simp] theorem toList_reset (ring : ByteRing) : ring.reset.toList = [] := by
  apply List.eq_nil_of_length_eq_zero
  rw [length_toList]
  rfl

@[simp] theorem toList_truncate (ring : ByteRing) (position : Nat) :
    (ring.truncate position).toList = ring.toList.take position := by
  apply toList_eq_of_cells
  · rw [List.length_take, length_toList]
    rfl
  · intro i hi
    rw [List.getElem_take, getElem_toList]
    rfl

-- A put writes over the byte under the cursor; at the end there is none.
theorem toList_put (ring : ByteRing) (byte : UInt8) (room : ring.cursor < ring.capacity) :
    (ring.put byte room).toList =
      ring.toList.take ring.cursor ++ byte :: ring.toList.drop (ring.cursor + 1) := by
  have hc := ring.cursor_le
  have hz := ring.size_le
  apply toList_eq_of_cells
  · simp only [put, List.length_append, List.length_take, List.length_cons, List.length_drop,
      length_toList]
    omega
  · intro i hi
    simp only [List.length_append, List.length_take, List.length_cons, List.length_drop,
      length_toList] at hi
    have hi' : i < ring.capacity := by unfold capacity at *; omega
    have hslot : ((ring.put byte room).slot i).val = (ring.slot i).val := by
      simp [slot, put]
    rw [Fin.getElem_fin]
    simp only [hslot]
    simp only [put, Array.getElem_set]
    by_cases heq : i = ring.cursor
    · subst heq
      have hlen : (ring.toList.take ring.cursor).length = ring.cursor := by simp [hc]
      simp [List.getElem_append_right, hlen]
    · have hne : (ring.slot ring.cursor).val ≠ (ring.slot i).val :=
        fun h => heq (slot_injective ring _ _ room hi' h).symm
      simp only [hne, ite_false]
      by_cases hlt : i < ring.cursor
      · rw [List.getElem_append_left (by simp; omega), List.getElem_take, getElem_toList]
        rfl
      · have hlen : (ring.toList.take ring.cursor).length = ring.cursor := by simp [hc]
        obtain ⟨k, rfl⟩ : ∃ k, i = ring.cursor + 1 + k := ⟨i - (ring.cursor + 1), by omega⟩
        rw [List.getElem_append_right (by omega)]
        simp only [hlen, show ring.cursor + 1 + k - ring.cursor = k + 1 by omega,
          List.getElem_cons_succ, List.getElem_drop]
        rw [getElem_toList]
        rfl

theorem toList_put_end (ring : ByteRing) (byte : UInt8) (room : ring.cursor < ring.capacity)
    (hend : ring.cursor = ring.size) : (ring.put byte room).toList = ring.toList ++ [byte] := by
  rw [toList_put, List.take_of_length_le (by simp [hend]), List.drop_of_length_le (by simp [hend])]

theorem toList_setCell (ring : ByteRing) (i : Nat) (byte : UInt8) (hi : i < ring.size) :
    (ring.setCell i byte).toList = ring.toList.set i byte := by
  have hz := ring.size_le_capacity
  apply toList_eq_of_cells
  · rw [List.length_set, length_toList]
    rfl
  · intro j hj
    rw [List.length_set, length_toList] at hj
    have hslot : ((ring.setCell i byte).slot j).val = (ring.slot j).val := by
      simp [slot, setCell]
    rw [Fin.getElem_fin]
    simp only [hslot]
    simp only [setCell, Array.getElem_set, List.getElem_set]
    by_cases heq : i = j
    · subst heq
      simp
    · have hne : (ring.slot i).val ≠ (ring.slot j).val :=
        fun h => heq (slot_injective ring _ _ (by omega) (by omega) h)
      simp only [hne, heq, ite_false]
      rw [getElem_toList]
      rfl

@[simp] theorem pull_cursor (ring : ByteRing) (gap position count : Nat) :
    (ring.pull gap position count).cursor = ring.cursor := by
  induction count generalizing ring position with
  | zero => rfl
  | succ count ih => exact ih _ _

@[simp] theorem pull_start (ring : ByteRing) (gap position count : Nat) :
    (ring.pull gap position count).start = ring.start := by
  induction count generalizing ring position with
  | zero => rfl
  | succ count ih => exact ih _ _

@[simp] theorem pull_size (ring : ByteRing) (gap position count : Nat) :
    (ring.pull gap position count).size = ring.size := by
  induction count generalizing ring position with
  | zero => rfl
  | succ count ih => exact ih _ _

@[simp] theorem pull_capacity (ring : ByteRing) (gap position count : Nat) :
    (ring.pull gap position count).capacity = ring.capacity := by
  induction count generalizing ring position with
  | zero => rfl
  | succ count ih =>
      rw [pull, ih]
      simp [capacity, setCell]

-- Each byte is read before its own place is written: the places read lie at or beyond those
-- written so far.
theorem toList_pull (ring : ByteRing) (gap position count : Nat)
    (hroom : position + count + gap ≤ ring.size) :
    (ring.pull gap position count).toList =
      ring.toList.take position ++ (ring.toList.drop (position + gap)).take count ++
        ring.toList.drop (position + count) := by
  induction count generalizing ring position with
  | zero => simp [pull]
  | succ count ih =>
      have hlen := ring.length_toList
      have hread : position + gap < ring.toList.length := by omega
      have hcell : ring.cells[ring.slot (position + gap)] = ring.toList[position + gap] :=
        (getElem_toList ring _ hread).symm
      rw [pull, ih _ _ (by simp only [setCell]; omega), hcell,
        toList_setCell ring _ _ (by omega)]
      have htake : (ring.toList.set position ring.toList[position + gap]).take (position + 1) =
          ring.toList.take position ++ [ring.toList[position + gap]] := by
        rw [List.take_set, List.set_eq_take_append_cons_drop]
        simp [List.take_take]
        omega
      have hdrop (k : Nat) (hk : position < k) :
          (ring.toList.set position ring.toList[position + gap]).drop k = ring.toList.drop k :=
        List.drop_set_of_lt hk
      rw [htake, hdrop _ (by omega), hdrop _ (by omega), List.drop_eq_getElem_cons hread,
        List.take_succ_cons, show position + 1 + gap = position + gap + 1 by omega,
        show position + 1 + count = position + (count + 1) by omega]
      simp only [List.append_assoc, List.cons_append, List.nil_append]

@[simp] theorem toList_remove (ring : ByteRing) (position count : Nat) :
    (ring.remove position count).toList =
      ring.toList.take position ++ ring.toList.drop (position + count) := by
  have hlen := ring.length_toList
  unfold remove
  split
  · have htail : (ring.toList.drop (position + min count (ring.size - position))).take
        (ring.size - position - min count (ring.size - position)) =
        ring.toList.drop (position + min count (ring.size - position)) :=
      List.take_of_length_le (by simp only [List.length_drop, hlen]; omega)
    have hkept : (ring.toList.take position ++
        ring.toList.drop (position + min count (ring.size - position))).length =
        ring.size - min count (ring.size - position) := by
      simp only [List.length_append, List.length_take, List.length_drop, hlen]
      omega
    rw [toList_truncate, toList_pull ring _ _ _ (by omega), htail, List.take_left' hkept]
    by_cases hcount : count ≤ ring.size - position
    · rw [Nat.min_eq_left hcount]
    · rw [List.drop_of_length_le (i := position + count) (by omega),
        List.drop_of_length_le (by omega)]
  · rw [List.take_of_length_le (by omega), List.drop_of_length_le (by omega), List.append_nil]

theorem remove_start (ring : ByteRing) (position count : Nat) :
    (ring.remove position count).start = ring.start := by
  unfold remove
  split
  · exact pull_start ring _ _ _
  · rfl

@[simp] theorem capacity_remove (ring : ByteRing) (position count : Nat) :
    (ring.remove position count).capacity = ring.capacity := by
  unfold remove
  split
  · exact pull_capacity ring _ _ _
  · rfl

theorem remove_cursor (ring : ByteRing) (position count : Nat) :
    (ring.remove position count).cursor =
      min ring.cursor (ring.size - min count (ring.size - position)) := by
  have hcursor := ring.cursor_le
  unfold remove
  split
  · simp only [truncate, pull_cursor]
  · omega

-- A ring that is written only at the end of its content and never moved on lies in its cells from
-- the first one, so that it never wraps.
structure Straight (ring : ByteRing) : Prop where
  start : ring.start = 0
  cursor : ring.cursor = ring.size

theorem Straight.slices {ring : ByteRing} (straight : ring.Straight) :
    ring.slices.1 = ring.toList := by
  have hz := ring.size_le
  have hnone : ring.slices.2 = [] := by
    apply List.eq_nil_of_length_eq_zero
    simp only [ByteRing.slices, capacity, straight.start, Array.length_toList, Array.size_extract]
    omega
  rw [toList, hnone, List.append_nil]

theorem straight_reset (ring : ByteRing) : ring.reset.Straight := ⟨rfl, rfl⟩

theorem Straight.clear {ring : ByteRing} (straight : ring.Straight) : ring.clear.Straight :=
  ⟨straight.start, rfl⟩

theorem Straight.put {ring : ByteRing} (straight : ring.Straight) (byte : UInt8)
    (room : ring.cursor < ring.capacity) : (ring.put byte room).Straight := by
  refine ⟨straight.start, ?_⟩
  simp only [ByteRing.put, straight.cursor]
  omega

theorem Straight.toList_put {ring : ByteRing} (straight : ring.Straight) (byte : UInt8)
    (room : ring.cursor < ring.capacity) : (ring.put byte room).toList = ring.toList ++ [byte] :=
  toList_put_end ring byte room straight.cursor

theorem toList_clear_put (ring : ByteRing) (byte : UInt8) :
    (ring.clear.put byte ring.capacity_pos).toList = [byte] := by
  rw [toList_put_end ring.clear byte ring.capacity_pos rfl, toList_clear, List.nil_append]

@[simp] theorem capacity_put (ring : ByteRing) (byte : UInt8) (room : ring.cursor < ring.capacity) :
    (ring.put byte room).capacity = ring.capacity := by
  simp [capacity, put]

-- The cells that hold no content may differ; nothing that is read from a ring depends on them.
structure Alike (left right : ByteRing) : Prop where
  capacity : left.capacity = right.capacity
  start : left.start = right.start
  cursor : left.cursor = right.cursor
  content : left.toList = right.toList

namespace Alike

variable {left right : ByteRing}

theorem refl (ring : ByteRing) : ring.Alike ring := ⟨rfl, rfl, rfl, rfl⟩

theorem symm (h : left.Alike right) : right.Alike left :=
  ⟨h.capacity.symm, h.start.symm, h.cursor.symm, h.content.symm⟩

theorem trans {other : ByteRing} (h : left.Alike right) (h' : right.Alike other) :
    left.Alike other :=
  ⟨h.capacity.trans h'.capacity, h.start.trans h'.start, h.cursor.trans h'.cursor,
    h.content.trans h'.content⟩

theorem size (h : left.Alike right) : left.size = right.size := by
  rw [← length_toList, h.content, length_toList]

-- The content and where it starts settle where it is cut in two.
theorem slices (h : left.Alike right) : left.slices = right.slices := by
  have hlength : left.slices.1.length = right.slices.1.length := by
    have hcapacity := h.capacity
    have hsize := h.size
    have hstart := h.start
    unfold ByteRing.capacity at hcapacity
    simp only [ByteRing.slices, ByteRing.capacity, Array.length_toList, Array.size_extract]
    omega
  obtain ⟨hfirst, hsecond⟩ := List.append_inj h.content hlength
  exact Prod.ext hfirst hsecond

theorem moveTo (h : left.Alike right) (position : Nat) :
    (left.moveTo position).Alike (right.moveTo position) where
  capacity := h.capacity
  start := h.start
  cursor := by simp only [ByteRing.moveTo, h.size]
  content := h.content

theorem room (h : left.Alike right) (room : left.cursor < left.capacity) :
    right.cursor < right.capacity := by
  rwa [h.cursor, h.capacity] at room

theorem put (h : left.Alike right) (byte : UInt8) (room : left.cursor < left.capacity) :
    (left.put byte room).Alike (right.put byte (h.room room)) where
  capacity := by rw [capacity_put, capacity_put, h.capacity]
  start := h.start
  cursor := congrArg (· + 1) h.cursor
  content := by rw [toList_put, toList_put, h.content, h.cursor]

theorem truncate (h : left.Alike right) (position : Nat) :
    (left.truncate position).Alike (right.truncate position) where
  capacity := h.capacity
  start := h.start
  cursor := by simp only [ByteRing.truncate, h.cursor]
  content := by rw [toList_truncate, toList_truncate, h.content]

theorem remove (h : left.Alike right) (position count : Nat) :
    (left.remove position count).Alike (right.remove position count) where
  capacity := by rw [capacity_remove, capacity_remove, h.capacity]
  start := by rw [remove_start, remove_start, h.start]
  cursor := by rw [remove_cursor, remove_cursor, h.cursor, h.size]
  content := by rw [toList_remove, toList_remove, h.content]

theorem clearOnward (h : left.Alike right) : left.clearOnward.Alike right.clearOnward where
  capacity := h.capacity
  start := by
    have hcapacity := h.capacity
    unfold ByteRing.capacity at hcapacity
    simp only [ByteRing.clearOnward, slot, h.start, h.size, hcapacity]
  cursor := rfl
  content := by rw [toList_clearOnward, toList_clearOnward]

end Alike

end TerminalRelay.ByteRing
