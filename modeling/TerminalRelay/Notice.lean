import TerminalRelay.Byte
import TerminalRelay.Modes

/-!
What the relay has to say while it works, beside its results.
-/

namespace TerminalRelay

inductive Level where
  | debug
  | info
  | warn
  | error
deriving DecidableEq, Repr

def Level.name : Level → String
  | debug => "DEBUG"
  | info => "INFO"
  | warn => "WARN"
  | error => "ERROR"

inductive Notice where
  | sequenceTooLong (length : Nat)
  | unhandledSequence (raw : Bytes)
  | forwardOnFullLine
  | deletePastEnd (count remaining : Nat)
  | unknownDirective (byte : UInt8)
  | malformedWindowSize (field : Bytes)
  | resizeRequested (size : WindowSize)
deriving DecidableEq, Repr

namespace Notice

def level : Notice → Level
  | sequenceTooLong _ | unhandledSequence _ | forwardOnFullLine | deletePastEnd _ _ => .debug
  | unknownDirective _ | malformedWindowSize _ => .warn
  | resizeRequested _ => .info

def message : Notice → String
  | sequenceTooLong _ => "escape sequence too long, passing through"
  | unhandledSequence _ => "unhandled escape sequence"
  | forwardOnFullLine => "cursor forward on a full line ignored"
  | deletePastEnd _ _ => "delete past end of line ignored"
  | unknownDirective _ => "unknown keyboard escape, discarded"
  | malformedWindowSize _ => "malformed window size, discarded"
  | resizeRequested _ => "window resize requested"

end Notice

end TerminalRelay
