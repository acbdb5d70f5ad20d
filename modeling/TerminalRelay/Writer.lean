import TerminalRelay.Failure

/-!
Destinations and the delivery of bytes to them. A destination answers each offer by taking some of
the bytes, perhaps none, or by failing; `deliver` offers what is left again and again until all is
taken or an answer is fatal.
-/

namespace TerminalRelay

-- One answer to an offer
inductive Answer where
  | take (limit : Nat)
  | fail (fault : Fault)
deriving DecidableEq, Repr

-- How a destination answers once its prepared answers are used up
inductive Device where
  | accepting
  | full
deriving DecidableEq, Repr

structure Writer where
  script : List Answer := []
  device : Device := .accepting
  -- what each answered offer took, in order
  taken : Array Bytes := #[]
  offers : Nat := 0
deriving DecidableEq, Repr

namespace Writer

-- All bytes the destination holds
def contents (writer : Writer) : Bytes :=
  writer.taken.toList.flatten

-- An offer that was answered by taking these bytes
def record (writer : Writer) (bytes : Bytes) : Writer :=
  { writer with taken := writer.taken.push bytes, offers := writer.offers + 1 }

-- An offer that failed
def refuse (writer : Writer) : Writer :=
  { writer with offers := writer.offers + 1 }

-- Recursion is on the prepared answers; what follows them settles the rest at once
def deliverBy (target : Target) :
    List Answer → Writer → Bytes → Outcome Writer
  | script, writer, [] => ⟨{ writer with script }, none⟩
  | [], writer, bytes =>
    match writer.device with
    | .accepting => ⟨{ writer.record bytes with script := [] }, none⟩
    | .full => ⟨{ writer.refuse with script := [] }, some (.write target .noSpace)⟩
  | .take limit :: script, writer, bytes =>
    let writer := writer.record (bytes.take limit)
    if limit = 0 then ⟨{ writer with script }, some (.writeZero target)⟩
    else deliverBy target script writer (bytes.drop limit)
  | .fail fault :: script, writer, bytes =>
    if fault.kind.isTransient then deliverBy target script writer.refuse bytes
    else ⟨{ writer.refuse with script }, some (.write target fault)⟩

def deliver (writer : Writer) (target : Target) (bytes : Bytes) : Outcome Writer :=
  deliverBy target writer.script writer bytes

-- Pushes out what the destination may still hold back; it can only succeed or fail as a whole
def flush (writer : Writer) (target : Target) (fault : Option Fault) : Outcome Writer :=
  ⟨writer, fault.map (.write target)⟩

end Writer

end TerminalRelay
