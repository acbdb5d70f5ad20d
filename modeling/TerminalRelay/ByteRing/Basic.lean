/-!
A ring of bytes with a write cursor. The cells never grow in number; the content starts anywhere
among them and wraps around their end. What the ring stands for is `toList` with `cursor`.
-/

namespace TerminalRelay

structure ByteRing where
  cells : Array UInt8
  start : Nat
  size : Nat
  cursor : Nat
  start_lt : start < cells.size
  size_le : size ≤ cells.size
  cursor_le : cursor ≤ size

namespace ByteRing

def capacity (ring : ByteRing) : Nat :=
  ring.cells.size

theorem capacity_pos (ring : ByteRing) : 0 < ring.capacity :=
  Nat.zero_lt_of_lt ring.start_lt

def empty (capacity : Nat) (positive : 0 < capacity) : ByteRing where
  cells := Array.replicate capacity 0
  start := 0
  size := 0
  cursor := 0
  start_lt := by simpa using positive
  size_le := Nat.zero_le _
  cursor_le := Nat.le_refl _

-- There is no ring without cells
def ofCapacity? (capacity : Nat) : Option ByteRing :=
  if positive : 0 < capacity then some (empty capacity positive) else none

def isEmpty (ring : ByteRing) : Bool :=
  ring.size == 0

-- The cell that holds offset `i` of the content
def slot (ring : ByteRing) (i : Nat) : Fin ring.cells.size :=
  ⟨(ring.start + i) % ring.cells.size, Nat.mod_lt _ ring.capacity_pos⟩

def get? (ring : ByteRing) (i : Nat) : Option UInt8 :=
  if i < ring.size then some ring.cells[ring.slot i] else none

def setCell (ring : ByteRing) (i : Nat) (byte : UInt8) : ByteRing where
  cells := ring.cells.set (ring.slot i) byte
  start := ring.start
  size := ring.size
  cursor := ring.cursor
  start_lt := by simpa using ring.start_lt
  size_le := by simpa using ring.size_le
  cursor_le := ring.cursor_le

-- Replaces a byte of the content; there is none outside it
def set (ring : ByteRing) (i : Nat) (byte : UInt8) : ByteRing :=
  if i < ring.size then ring.setCell i byte else ring

def moveTo (ring : ByteRing) (position : Nat) : ByteRing :=
  { ring with
    cursor := min position ring.size
    cursor_le := Nat.min_le_right _ _ }

-- Overwrites the byte under the cursor, or grows the content by one at its end, and steps on
def put (ring : ByteRing) (byte : UInt8) (room : ring.cursor < ring.capacity) : ByteRing where
  cells := ring.cells.set (ring.slot ring.cursor) byte
  start := ring.start
  size := max ring.size (ring.cursor + 1)
  cursor := ring.cursor + 1
  start_lt := by simpa using ring.start_lt
  size_le := by
    have := ring.size_le
    simp only [Array.size_set]
    exact Nat.max_le.mpr ⟨this, room⟩
  cursor_le := Nat.le_max_right _ _

-- The only way a ring refuses a byte
inductive Refusal where
  | full (capacity : Nat)
deriving DecidableEq, Repr

def Refusal.message : Refusal → String
  | full capacity => s!"ring buffer full ({capacity} bytes)"

def put? (ring : ByteRing) (byte : UInt8) : Except Refusal ByteRing :=
  if room : ring.cursor < ring.capacity then .ok (ring.put byte room)
  else .error (.full ring.capacity)

-- Stops at the first byte that finds no room
def putAll (ring : ByteRing) : List UInt8 → ByteRing × Option Refusal
  | [] => (ring, none)
  | byte :: rest =>
    if room : ring.cursor < ring.capacity then (ring.put byte room).putAll rest
    else (ring, some (.full ring.capacity))

def truncate (ring : ByteRing) (position : Nat) : ByteRing :=
  { ring with
    size := min position ring.size
    cursor := min ring.cursor position
    size_le := Nat.le_trans (Nat.min_le_right _ _) ring.size_le
    cursor_le := by have := ring.cursor_le; omega }

-- Copies, for `count` offsets from `position` on and in this order, the byte `gap` places on
def pull (ring : ByteRing) (gap : Nat) : Nat → Nat → ByteRing
  | _, 0 => ring
  | position, count + 1 =>
    (ring.setCell position ring.cells[ring.slot (position + gap)]).pull gap (position + 1) count

-- Takes `count` bytes out from `position` on, as far as there are that many, and closes the gap
def remove (ring : ByteRing) (position count : Nat) : ByteRing :=
  if position < ring.size then
    let count := min count (ring.size - position)
    (ring.pull count position (ring.size - position - count)).truncate (ring.size - count)
  else ring

def clear (ring : ByteRing) : ByteRing :=
  { ring with
    size := 0
    cursor := 0
    size_le := Nat.zero_le _
    cursor_le := Nat.le_refl _ }

-- Empties the ring and goes on in the cell after the old content
def clearOnward (ring : ByteRing) : ByteRing :=
  { ring with
    start := ring.slot ring.size
    size := 0
    cursor := 0
    start_lt := (ring.slot ring.size).isLt
    size_le := Nat.zero_le _
    cursor_le := Nat.le_refl _ }

def reset (ring : ByteRing) : ByteRing :=
  { ring with
    start := 0
    size := 0
    cursor := 0
    start_lt := ring.capacity_pos
    size_le := Nat.zero_le _
    cursor_le := Nat.le_refl _ }

-- The content as it lies in the cells: up to their end, and what wraps around to their beginning
def slices (ring : ByteRing) : List UInt8 × List UInt8 :=
  let stop := ring.start + ring.size
  ((ring.cells.extract ring.start (min stop ring.capacity)).toList,
    (ring.cells.extract 0 (stop - ring.capacity)).toList)

def toList (ring : ByteRing) : List UInt8 :=
  ring.slices.1 ++ ring.slices.2

end ByteRing

end TerminalRelay
