import TerminalRelay.Byte

/-!
Why a write or a session fails, and in what words that is told.
-/

namespace TerminalRelay

-- The kinds of failure an operating system reports for a read, a write or an opening
inductive FaultKind where
  | notFound
  | permissionDenied
  | connectionReset
  | brokenPipe
  | wouldBlock
  | invalidInput
  | timedOut
  | writeZero
  | interrupted
  | unexpectedEof
  | isADirectory
  | notADirectory
  | storageFull
  | other
deriving DecidableEq, Repr

def FaultKind.description : FaultKind → String
  | notFound => "entity not found"
  | permissionDenied => "permission denied"
  | connectionReset => "connection reset"
  | brokenPipe => "broken pipe"
  | wouldBlock => "operation would block"
  | invalidInput => "invalid input parameter"
  | timedOut => "timed out"
  | writeZero => "write zero"
  | interrupted => "operation interrupted"
  | unexpectedEof => "unexpected end of file"
  | isADirectory => "is a directory"
  | notADirectory => "not a directory"
  | storageFull => "no storage space"
  | other => "other error"

-- Worth another try at once
def FaultKind.isTransient (kind : FaultKind) : Bool :=
  kind == interrupted || kind == wouldBlock

structure Fault where
  kind : FaultKind
  detail : Option String := none
deriving DecidableEq, Repr

namespace Fault

def message (fault : Fault) : String :=
  fault.detail.getD fault.kind.description

-- The failures the system numbers, in its own words

def noSuchFile : Fault :=
  ⟨.notFound, some "No such file or directory (os error 2)"⟩

def accessDenied : Fault :=
  ⟨.permissionDenied, some "Permission denied (os error 13)"⟩

def inNoDirectory : Fault :=
  ⟨.notADirectory, some "Not a directory (os error 20)"⟩

def isDirectory : Fault :=
  ⟨.isADirectory, some "Is a directory (os error 21)"⟩

def noSpace : Fault :=
  ⟨.storageFull, some "No space left on device (os error 28)"⟩

end Fault

-- Where the relay writes
inductive Target where
  | plainLog
  | rawLog
  | pty
  | viewers
deriving DecidableEq, Repr

def Target.name : Target → String
  | plainLog => "plain log"
  | rawLog => "raw log"
  | pty => "pty"
  | viewers => "viewer stream"

-- What ends a session; a malformed keystroke or escape sequence never does
inductive SessionError where
  | lineTooLong (capacity : Nat)
  | write (target : Target) (fault : Fault)
  | writeZero (target : Target)
deriving DecidableEq, Repr

def SessionError.message : SessionError → String
  | lineTooLong capacity => s!"Logical line exceeds the {capacity}-byte line buffer"
  | write target fault => s!"Failed to write to {target.name}: {fault.message}"
  | writeZero target => s!"Write to {target.name} accepted zero bytes"

-- The message, then the messages of what caused it, outermost first
def SessionError.chain : SessionError → List String
  | write target fault => [(write target fault).message, fault.message]
  | error => [error.message]

-- What an operation that may fail leaves behind: its state outlives the error that stopped it
structure Outcome (σ : Type) where
  state : σ
  error : Option SessionError := none

namespace Outcome

variable {σ τ : Type}

-- Goes on in the state that was reached, unless an error stopped the run there
def andThen (outcome : Outcome σ) (next : σ → Outcome σ) : Outcome σ :=
  match outcome with
  | ⟨state, none⟩ => next state
  | ⟨state, some error⟩ => ⟨state, some error⟩

def map (f : σ → τ) (outcome : Outcome σ) : Outcome τ :=
  ⟨f outcome.state, outcome.error⟩

end Outcome

end TerminalRelay
