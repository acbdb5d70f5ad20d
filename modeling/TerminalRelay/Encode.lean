import TerminalRelay.Command
import TerminalRelay.Transport

/-!
Printing the transport encoding of an input in one line.
-/

namespace TerminalRelay.Encode

def command (source : Source) (stdout : Device) : Exit :=
  match source.bytes "input" with
  | .error chain => .failure [] chain
  | .ok bytes =>
    let line := Transport.encode bytes ++ [Byte.newline]
    let outcome := ({ device := stdout } : Writer).deliver .viewers line
    match outcome.error with
    | none => .success outcome.state.contents
    | some error => .failure outcome.state.contents error.chain

end TerminalRelay.Encode
