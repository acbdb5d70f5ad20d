/-!
The settings of a session.
-/

namespace TerminalRelay

structure Config where
  -- longest logical line that can be rebuilt
  lineCapacity : Nat := 16384
  -- longest escape sequence that is collected before it is given up
  escapeCapacity : Nat := 64
  -- unhandled sequences kept for diagnosis
  debugCapacity : Nat := 16
  -- whether output goes to the viewers
  forwardToViewers : Bool := true
deriving DecidableEq, Repr

end TerminalRelay
