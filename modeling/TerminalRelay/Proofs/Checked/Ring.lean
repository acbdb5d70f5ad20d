import TerminalRelay.Proofs.ByteRing.Content
import TerminalRelay.Proofs.Checked.Word

namespace TerminalRelay

open Checked (sizeLimit)

-- A ring about whose numbers nothing is known
structure BareRing where
  cells : Array UInt8
  start : Nat
  size : Nat
  cursor : Nat
deriving DecidableEq, Repr

namespace BareRing

def new (capacity : Nat) : Except Breach BareRing :=
  if capacity = 0 then .error .assertion
  else do
    Checked.allocate capacity 1
    return { cells := Array.replicate capacity 0, start := 0, size := 0, cursor := 0 }

def capacity (ring : BareRing) : Nat :=
  ring.cells.size

def physical (ring : BareRing) (i : Nat) : Except Breach Nat := do
  Checked.rem (← Checked.add sizeLimit ring.start i) ring.capacity

def moveTo (ring : BareRing) (position : Nat) : BareRing :=
  { ring with cursor := min position ring.size }

-- No ring comes back where the ring is full.
def put? (ring : BareRing) (byte : UInt8) : Except Breach (Option BareRing) :=
  if ring.capacity ≤ ring.cursor then return none
  else do
    let cells ← Checked.write ring.cells (← ring.physical ring.cursor) byte
    let cursor ← Checked.add sizeLimit ring.cursor 1
    return some { ring with cells, cursor, size := max ring.size cursor }

def truncate (ring : BareRing) (position : Nat) : BareRing :=
  { ring with size := min position ring.size, cursor := min ring.cursor (min position ring.size) }

-- Copies one byte to the place `gap` before it.
def pullOne (ring : BareRing) (gap position : Nat) : Except Breach BareRing := do
  let source ← ring.physical (← Checked.add sizeLimit position gap)
  let byte ← Checked.read ring.cells source
  return { ring with cells := ← Checked.write ring.cells (← ring.physical position) byte }

def pull (ring : BareRing) (gap : Nat) : (position count : Nat) → Except Breach BareRing
  | _, 0 => return ring
  | position, count + 1 => do (← ring.pullOne gap position).pull gap (position + 1) count

def remove (ring : BareRing) (position count : Nat) : Except Breach BareRing :=
  if ring.size ≤ position ∨ count = 0 then return ring
  else do
    let count := min count (← Checked.sub ring.size position)
    let stop ← Checked.sub ring.size count
    let ring ← ring.pull count position (stop - position)
    let size ← Checked.sub ring.size count
    return { ring with size, cursor := min ring.cursor size }

def clear (ring : BareRing) : BareRing :=
  { ring with size := 0, cursor := 0 }

def clearOnward (ring : BareRing) : Except Breach BareRing := do
  return { ring with start := ← ring.physical ring.size }.clear

def reset (ring : BareRing) : BareRing :=
  { ring with start := 0 }.clear

def slices (ring : BareRing) : Except Breach (Bytes × Bytes) :=
  if ring.size = 0 then return ([], [])
  else do
    let start ← Checked.rem ring.start ring.capacity
    let stop ← Checked.add sizeLimit start ring.size
    if stop ≤ ring.capacity then
      return (← Checked.slice ring.cells start stop, [])
    else do
      let first ← Checked.sub ring.capacity start
      let second ← Checked.sub ring.size first
      return (← Checked.slice ring.cells start ring.capacity,
        ← Checked.slice ring.cells 0 second)

def toList (ring : BareRing) : Except Breach Bytes := do
  let (first, second) ← ring.slices
  return first ++ second

structure Bounded (ring : BareRing) : Prop where
  cursor : ring.cursor ≤ ring.size
  size : ring.size ≤ ring.capacity
  start : ring.start < ring.capacity

end BareRing

namespace ByteRing

def bare (ring : ByteRing) : BareRing where
  cells := ring.cells
  start := ring.start
  size := ring.size
  cursor := ring.cursor

@[simp] theorem bare_cells (ring : ByteRing) : ring.bare.cells = ring.cells := rfl

@[simp] theorem bare_capacity (ring : ByteRing) : ring.bare.capacity = ring.capacity := rfl

@[simp] theorem bare_start (ring : ByteRing) : ring.bare.start = ring.start := rfl

@[simp] theorem bare_size (ring : ByteRing) : ring.bare.size = ring.size := rfl

@[simp] theorem bare_cursor (ring : ByteRing) : ring.bare.cursor = ring.cursor := rfl

theorem bounded_bare (ring : ByteRing) : ring.bare.Bounded :=
  ⟨ring.cursor_le, ring.size_le, ring.start_lt⟩

-- Memory that can be had: two offsets into it add up to a number of 64 bits.
def Fits (ring : ByteRing) : Prop :=
  ring.capacity < 2 ^ 63

variable {ring : ByteRing}

theorem Fits.add (fits : ring.Fits) {a b : Nat} (ha : a ≤ ring.capacity)
    (hb : b ≤ ring.capacity) : Checked.add sizeLimit a b = .ok (a + b) := by
  have hfits : ring.capacity < 2 ^ 63 := fits
  exact Checked.add_size (by omega)

theorem bare_empty {capacity : Nat} (positive : 0 < capacity) (h : capacity < 2 ^ 63) :
    BareRing.new capacity = .ok (empty capacity positive).bare := by
  have hallocated : Checked.allocate capacity 1 = .ok () :=
    Checked.allocate_of_lt (by rwa [Nat.mul_one])
  rw [BareRing.new, if_neg (Nat.ne_of_gt positive), hallocated]
  rfl

theorem Fits.physical_bare (fits : ring.Fits) {i : Nat} (hi : i ≤ ring.capacity) :
    ring.bare.physical i = .ok (ring.slot i).val := by
  have hstart : ring.start ≤ ring.capacity := Nat.le_of_lt ring.start_lt_capacity
  have hadd := fits.add hstart hi
  have hrem : Checked.rem (ring.start + i) ring.capacity = .ok (ring.slot i).val :=
    Checked.rem_of_pos ring.capacity_pos
  simp only [BareRing.physical, bare_start, bare_capacity, hadd, hrem, bind, Except.bind]

theorem Fits.put_bare (fits : ring.Fits) (byte : UInt8) :
    ring.bare.put? byte =
      .ok (if room : ring.cursor < ring.capacity then some (ring.put byte room).bare
        else none) := by
  have hpos : 1 ≤ ring.capacity := ring.capacity_pos
  rw [BareRing.put?, bare_capacity, bare_cursor]
  by_cases room : ring.cursor < ring.capacity
  · have hcursor : ring.cursor ≤ ring.capacity := Nat.le_of_lt room
    have hphysical := fits.physical_bare hcursor
    have hwrite : Checked.write ring.cells (ring.slot ring.cursor).val byte =
        .ok (ring.cells.set (ring.slot ring.cursor) byte) :=
      Checked.write_of_lt byte (ring.slot ring.cursor).isLt
    have hadd := fits.add hcursor hpos
    rw [if_neg (Nat.not_le.mpr room), dif_pos room]
    simp only [bare_cells, hphysical, hwrite, hadd, bind, Except.bind]
    rfl
  · rw [if_pos (Nat.le_of_not_lt room), dif_neg room]
    rfl

theorem Fits.put (fits : ring.Fits) (byte : UInt8) (room : ring.cursor < ring.capacity) :
    (ring.put byte room).Fits := by
  unfold Fits
  rwa [capacity_put]

theorem moveTo_cursor (ring : ByteRing) : ring.moveTo ring.cursor = ring := by
  simp only [moveTo, Nat.min_eq_left ring.cursor_le]

theorem bare_truncate (position : Nat) :
    ring.bare.truncate position = (ring.truncate position).bare := by
  have hle := ring.cursor_le
  have hcursor : min ring.cursor (min position ring.size) = min ring.cursor position := by
    omega
  rw [BareRing.truncate, bare_cursor, bare_size, hcursor]
  rfl

theorem capacity_setCell (ring : ByteRing) (i : Nat) (byte : UInt8) :
    (ring.setCell i byte).capacity = ring.capacity := by
  simp [capacity, setCell]

theorem Fits.pullOne_bare (fits : ring.Fits) {gap position : Nat}
    (hroom : position + gap ≤ ring.capacity) :
    ring.bare.pullOne gap position = .ok (ring.pull gap position 1).bare := by
  have hposition : position ≤ ring.capacity := by omega
  have hgap : gap ≤ ring.capacity := by omega
  have hadd := fits.add hposition hgap
  have hsource := fits.physical_bare hroom
  have hread : Checked.read ring.cells (ring.slot (position + gap)).val =
      .ok ring.cells[ring.slot (position + gap)] :=
    Checked.read_of_lt (ring.slot (position + gap)).isLt
  have hplace := fits.physical_bare hposition
  have hwrite : Checked.write ring.cells (ring.slot position).val
      ring.cells[ring.slot (position + gap)] =
        .ok (ring.cells.set (ring.slot position) ring.cells[ring.slot (position + gap)]) :=
    Checked.write_of_lt _ (ring.slot position).isLt
  simp only [BareRing.pullOne, bare_cells, hadd, hsource, hread, hplace, hwrite, bind, Except.bind]
  rfl

theorem Fits.pull_bare (fits : ring.Fits) {gap position count : Nat}
    (hroom : position + count + gap ≤ ring.capacity) :
    ring.bare.pull gap position count = .ok (ring.pull gap position count).bare := by
  induction count generalizing ring position with
  | zero => rfl
  | succ count ih =>
      have hone : ring.bare.pullOne gap position =
          .ok (ring.setCell position ring.cells[ring.slot (position + gap)]).bare :=
        fits.pullOne_bare (by omega)
      have hcapacity := capacity_setCell ring position ring.cells[ring.slot (position + gap)]
      have hfits : (ring.setCell position ring.cells[ring.slot (position + gap)]).Fits := by
        unfold Fits
        rwa [hcapacity]
      have hroom' : position + 1 + count + gap ≤
          (ring.setCell position ring.cells[ring.slot (position + gap)]).capacity := by
        omega
      rw [BareRing.pull, hone]
      exact ih hfits hroom'

-- Nothing is taken out, and every byte is copied to where it is.
theorem pull_of_gap_zero (ring : ByteRing) (position count : Nat) :
    ring.pull 0 position count = ring := by
  induction count generalizing position with
  | zero => rfl
  | succ count ih =>
      have hsame : ring.setCell position ring.cells[ring.slot (position + 0)] = ring := by
        simp [setCell]
      rw [pull, hsame, ih]

theorem remove_of_nothing {position count : Nat} (h : ring.size ≤ position ∨ count = 0) :
    ring.remove position count = ring := by
  unfold remove
  split
  · have hcount : count = 0 := by omega
    dsimp only
    rw [hcount, Nat.zero_min, pull_of_gap_zero]
    simp only [truncate, Nat.sub_zero, Nat.min_self, Nat.min_eq_left ring.cursor_le]
  · rfl

theorem Fits.remove_bare (fits : ring.Fits) (position count : Nat) :
    ring.bare.remove position count = .ok (ring.remove position count).bare := by
  have hsize := ring.size_le_capacity
  have hcursor := ring.cursor_le
  rw [BareRing.remove, bare_size]
  by_cases hnone : ring.size ≤ position ∨ count = 0
  · rw [if_pos hnone, remove_of_nothing hnone]
    rfl
  · have hposition : position < ring.size := by omega
    have hremaining := Checked.sub_of_le (Nat.le_of_lt hposition)
    rw [if_neg hnone, remove, if_pos hposition]
    simp only [hremaining, bind, Except.bind]
    generalize hleast : min count (ring.size - position) = least
    have hleast' : least ≤ ring.size - position := by omega
    have hstop : Checked.sub ring.size least = .ok (ring.size - least) :=
      Checked.sub_of_le (by omega)
    have hpull : ring.bare.pull least position (ring.size - least - position) =
        .ok (ring.pull least position (ring.size - least - position)).bare :=
      fits.pull_bare (by omega)
    have hcomm : ring.size - least - position = ring.size - position - least := by omega
    have hleft : min (ring.size - least) ring.size = ring.size - least := by omega
    rw [hcomm] at hpull
    simp only [hstop, hcomm, hpull, bare_size, pull_size]
    rw [← bare_truncate, BareRing.truncate, bare_size, pull_size, hleft]
    rfl

theorem Fits.clearOnward_bare (fits : ring.Fits) :
    ring.bare.clearOnward = .ok ring.clearOnward.bare := by
  have hphysical := fits.physical_bare ring.size_le_capacity
  rw [BareRing.clearOnward, bare_size, hphysical]
  rfl

-- The two pieces of a content that wraps around, and the one piece of a content that does not
theorem Fits.slices_bare (fits : ring.Fits) : ring.bare.slices = .ok ring.slices := by
  have hstart := ring.start_lt_capacity
  have hsize := ring.size_le_capacity
  have hlist := ring.length_toList
  rw [BareRing.slices, bare_size, bare_start, bare_capacity, bare_cells]
  by_cases hempty : ring.size = 0
  · have hnil : ring.toList = [] := List.eq_nil_of_length_eq_zero (hlist.trans hempty)
    obtain ⟨hfirst, hsecond⟩ := List.append_eq_nil_iff.mp hnil
    have hslices : ring.slices = ([], []) := Prod.ext hfirst hsecond
    rw [if_pos hempty, hslices]
    rfl
  · have hrem : Checked.rem ring.start ring.capacity = .ok ring.start := by
      rw [Checked.rem_of_pos ring.capacity_pos, Nat.mod_eq_of_lt hstart]
    have hadd := fits.add (Nat.le_of_lt hstart) hsize
    rw [if_neg hempty]
    simp only [hrem, hadd, bind, Except.bind]
    by_cases hwrap : ring.start + ring.size ≤ ring.capacity
    · have hslice : Checked.slice ring.cells ring.start (ring.start + ring.size) =
          .ok ring.slices.1 := by
        rw [Checked.slice_of_le (Nat.le_add_right ring.start ring.size) hwrap, slices,
          Nat.min_eq_left hwrap]
      have hsecond : ring.slices.2 = [] := by
        simp only [slices, Nat.sub_eq_zero_of_le hwrap, Array.extract_zero]
      rw [if_pos hwrap, hslice, ← hsecond]
      rfl
    · have hover : ring.capacity ≤ ring.start + ring.size := by omega
      have hfirst := Checked.sub_of_le (Nat.le_of_lt hstart)
      have hsecond : Checked.sub ring.size (ring.capacity - ring.start) =
          .ok (ring.start + ring.size - ring.capacity) := by
        rw [Checked.sub_of_le (by omega)]
        congr 1
        omega
      have hslice : Checked.slice ring.cells ring.start ring.capacity = .ok ring.slices.1 := by
        rw [Checked.slice_of_le (Nat.le_of_lt hstart) (Nat.le_refl _), slices,
          Nat.min_eq_right hover]
      have hslice' : Checked.slice ring.cells 0 (ring.start + ring.size - ring.capacity) =
          .ok ring.slices.2 :=
        Checked.slice_of_le (Nat.zero_le _) (by change _ ≤ ring.capacity; omega)
      rw [if_neg hwrap]
      simp only [hfirst, hsecond, hslice, hslice']
      rfl

theorem Fits.toList_bare (fits : ring.Fits) : ring.bare.toList = .ok ring.toList := by
  rw [BareRing.toList, fits.slices_bare]
  rfl

end ByteRing

end TerminalRelay
