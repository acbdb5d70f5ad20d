/-!
JSON documents as far as the relay writes them: its numbers are natural numbers.
-/

namespace TerminalRelay

inductive Json where
  | null
  | bool (value : Bool)
  | number (value : Nat)
  | string (text : String)
  | array (items : List Json)
  | object (fields : List (String × Json))

end TerminalRelay
