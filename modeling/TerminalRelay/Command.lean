import TerminalRelay.ErrorReport
import TerminalRelay.Writer

/-!
What all commands have in common: where their input comes from and what a run leaves behind.
-/

namespace TerminalRelay

-- The input of a command, or what kept it from being had
inductive Source where
  | content (bytes : Bytes)
  | unopened (path : String) (fault : Fault)
  | unreadable (fault : Fault)

-- What a finished run leaves
structure Exit where
  code : Nat
  stdout : Bytes
  stderr : String
deriving DecidableEq, Repr

namespace Exit

def success (stdout : Bytes) : Exit :=
  { code := 0, stdout, stderr := "" }

-- What was printed before the failure stays printed
def failure (stdout : Bytes) (chain : List String) : Exit :=
  { code := 1, stdout, stderr := ErrorReport.render chain }

end Exit

-- The bytes of the input, or the report that there are none; `purpose` says what they were for
def Source.bytes (source : Source) (purpose : String) : Except (List String) Bytes :=
  match source with
  | content bytes => .ok bytes
  | unopened path fault => .error ["Failed to open " ++ path, fault.message]
  | unreadable fault => .error ["Failed to read " ++ purpose, fault.message]

-- Pieces of `size` bytes, and a last one of what is left
def Bytes.pieces (size : Nat) (bytes : Bytes) : List Bytes :=
  if 0 < size ∧ bytes ≠ [] then bytes.take size :: Bytes.pieces size (bytes.drop size) else []
termination_by bytes.length
decreasing_by
  rename_i h
  have := List.length_pos_iff.mpr h.2
  simp only [List.length_drop]
  omega

end TerminalRelay
