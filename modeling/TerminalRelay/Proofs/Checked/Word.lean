import TerminalRelay.Writer
import Mathlib.Algebra.Group.Nat.Defs

namespace TerminalRelay

-- What stops a program against its will
inductive Breach where
  -- a cell that is not there
  | index
  -- a piece of cells that are not all there, or a copy into a piece of another length
  | range
  | overflow
  | underflow
  | division
  | assertion
  -- memory that cannot be had
  | allocation
  -- a byte that is read again without end
  | recursion
deriving DecidableEq, Repr

-- Arithmetic, cells and writes of a machine that stops rather than give a wrong answer
namespace Checked

-- The numbers of 64 bits and those of 16 lie below these.
def sizeLimit : Nat := 2 ^ 64

def shortLimit : Nat := 2 ^ 16

def add (limit a b : Nat) : Except Breach Nat :=
  if a + b < limit then .ok (a + b) else .error .overflow

def mul (limit a b : Nat) : Except Breach Nat :=
  if a * b < limit then .ok (a * b) else .error .overflow

def sub (a b : Nat) : Except Breach Nat :=
  if b ≤ a then .ok (a - b) else .error .underflow

def div (a b : Nat) : Except Breach Nat :=
  if b = 0 then .error .division else .ok (a / b)

def rem (a b : Nat) : Except Breach Nat :=
  if b = 0 then .error .division else .ok (a % b)

-- No machine has this many bytes.
def memoryLimit : Nat := 2 ^ 63

-- Room for a number of things of one size in bytes
def allocate (count size : Nat) : Except Breach Unit :=
  if count * size < memoryLimit then .ok () else .error .allocation

def read (cells : Array UInt8) (i : Nat) : Except Breach UInt8 :=
  if h : i < cells.size then .ok cells[i] else .error .index

def write (cells : Array UInt8) (i : Nat) (byte : UInt8) : Except Breach (Array UInt8) :=
  if h : i < cells.size then .ok (cells.set i byte) else .error .index

-- The cells from `first` up to `stop`
def slice (cells : Array UInt8) (first stop : Nat) : Except Breach Bytes :=
  if first ≤ stop ∧ stop ≤ cells.size then .ok (cells.extract first stop).toList
  else .error .range

-- Fills the cells from `first` up to `stop`, and no others.
def copyInto (cells : Array UInt8) (first stop : Nat) (bytes : Bytes) :
    Except Breach (Array UInt8) :=
  if first ≤ stop ∧ stop ≤ cells.size ∧ bytes.length = stop - first then
    .ok (cells.toList.take first ++ bytes ++ cells.toList.drop stop).toArray
  else .error .range

-- What is left of the bytes behind the first `count`
def skip (bytes : Bytes) (count : Nat) : Except Breach Bytes :=
  if count ≤ bytes.length then .ok (bytes.drop count) else .error .range

theorem add_of_lt {limit a b : Nat} (h : a + b < limit) : add limit a b = .ok (a + b) :=
  if_pos h

theorem add_size {a b : Nat} (h : a + b < 2 ^ 64) : add sizeLimit a b = .ok (a + b) :=
  if_pos h

theorem mul_of_lt {limit a b : Nat} (h : a * b < limit) : mul limit a b = .ok (a * b) :=
  if_pos h

theorem sub_of_le {a b : Nat} (h : b ≤ a) : sub a b = .ok (a - b) :=
  if_pos h

theorem div_of_pos {a b : Nat} (h : 0 < b) : div a b = .ok (a / b) :=
  if_neg (Nat.ne_of_gt h)

theorem rem_of_pos {a b : Nat} (h : 0 < b) : rem a b = .ok (a % b) :=
  if_neg (Nat.ne_of_gt h)

theorem allocate_of_lt {count size : Nat} (h : count * size < memoryLimit) :
    allocate count size = .ok () :=
  if_pos h

theorem read_of_lt {cells : Array UInt8} {i : Nat} (h : i < cells.size) :
    read cells i = .ok cells[i] :=
  dif_pos h

theorem write_of_lt {cells : Array UInt8} {i : Nat} (byte : UInt8) (h : i < cells.size) :
    write cells i byte = .ok (cells.set i byte) :=
  dif_pos h

theorem slice_of_le {cells : Array UInt8} {first stop : Nat} (h : first ≤ stop)
    (h' : stop ≤ cells.size) : slice cells first stop = .ok (cells.extract first stop).toList :=
  if_pos ⟨h, h'⟩

theorem copyInto_of_fits {cells : Array UInt8} {first stop : Nat} {bytes : Bytes}
    (h : stop = first + bytes.length) (h' : stop ≤ cells.size) :
    copyInto cells first stop bytes =
      .ok (cells.toList.take first ++ bytes ++ cells.toList.drop stop).toArray := by
  unfold copyInto
  rw [if_pos]
  omega

-- Goes on, unless the program stopped with an error that it meant to tell.
def onward {σ : Type} (outcome : Outcome σ) (next : σ → Except Breach (Outcome σ)) :
    Except Breach (Outcome σ) :=
  match outcome with
  | ⟨state, none⟩ => next state
  | ⟨state, some error⟩ => .ok ⟨state, some error⟩

theorem onward_ok {σ : Type} (outcome : Outcome σ) {next : σ → Except Breach (Outcome σ)}
    {f : σ → Outcome σ} (h : ∀ state, next state = .ok (f state)) :
    onward outcome next = .ok (outcome.andThen f) := by
  obtain ⟨state, error⟩ := outcome
  cases error with
  | none => exact h state
  | some error => rfl

-- A destination takes no more than it is offered, and the rest is offered once more.
def deliverBy (target : Target) :
    List Answer → Writer → Bytes → Except Breach (Outcome Writer)
  | script, writer, [] => .ok ⟨{ writer with script }, none⟩
  | [], writer, bytes =>
    match writer.device with
    | .accepting => .ok ⟨{ writer.record bytes with script := [] }, none⟩
    | .full => .ok ⟨{ writer.refuse with script := [] }, some (.write target .noSpace)⟩
  | .take limit :: script, writer, bytes => do
    let count := min limit bytes.length
    let writer := writer.record (bytes.take count)
    if count = 0 then return ⟨{ writer with script }, some (.writeZero target)⟩
    else deliverBy target script writer (← skip bytes count)
  | .fail fault :: script, writer, bytes =>
    if fault.kind.isTransient then deliverBy target script writer.refuse bytes
    else .ok ⟨{ writer.refuse with script }, some (.write target fault)⟩

def deliver (writer : Writer) (target : Target) (bytes : Bytes) :
    Except Breach (Outcome Writer) :=
  deliverBy target writer.script writer bytes

theorem deliverBy_eq (target : Target) (script : List Answer) (writer : Writer) (bytes : Bytes) :
    deliverBy target script writer bytes = .ok (Writer.deliverBy target script writer bytes) := by
  induction script generalizing writer bytes with
  | nil =>
      cases bytes with
      | nil => rfl
      | cons byte rest =>
          simp only [deliverBy, Writer.deliverBy]
          cases writer.device <;> rfl
  | cons answer script ih =>
      cases bytes with
      | nil => rfl
      | cons byte rest =>
          cases answer with
          | fail fault =>
              simp only [deliverBy, Writer.deliverBy]
              split
              · exact ih _ _
              · rfl
          | take limit =>
              have htake : (byte :: rest).take (min limit (byte :: rest).length) =
                  (byte :: rest).take limit := List.take_eq_take_min.symm
              have hskip : skip (byte :: rest) (min limit (byte :: rest).length) =
                  .ok ((byte :: rest).drop limit) := by
                rw [skip, if_pos (Nat.min_le_right _ _), ← List.drop_eq_drop_min]
              have hzero : min limit (byte :: rest).length = 0 ↔ limit = 0 := by
                rw [List.length_cons]
                omega
              simp only [deliverBy, Writer.deliverBy, htake, hzero]
              split
              · rfl
              · rw [hskip]
                exact ih _ _

theorem deliver_eq (writer : Writer) (target : Target) (bytes : Bytes) :
    deliver writer target bytes = .ok (writer.deliver target bytes) :=
  deliverBy_eq target writer.script writer bytes

end Checked

end TerminalRelay
