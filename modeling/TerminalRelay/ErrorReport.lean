/-!
How a command reports that it failed: the message, and below it what caused it, the nearest cause
first. Several causes are numbered.
-/

namespace TerminalRelay.ErrorReport

def numbered (index : Nat) (cause : String) : String :=
  "".pushn ' ' (5 - (toString index).length) ++ toString index ++ ": " ++ cause ++ "\n"

-- A chain of messages, outermost first
def render : List String → String
  | [] => ""
  | [message] => "Error: " ++ message ++ "\n"
  | [message, cause] => "Error: " ++ message ++ "\n\nCaused by:\n    " ++ cause ++ "\n"
  | message :: causes =>
    "Error: " ++ message ++ "\n\nCaused by:\n" ++
      "".intercalate ((causes.zipIdx).map fun (cause, index) => numbered index cause)

end TerminalRelay.ErrorReport
