import TerminalRelay.Json.Number

/-!
Values that are checked to be JSON and otherwise passed over.
-/

namespace TerminalRelay.Json

mutual

-- `fuel` bounds the characters still to be read
def skipValueWithin : (fuel : Nat) → List Char → Except Problem (List Char)
  | 0, _ => .error .unfinished
  | fuel + 1, text =>
    match dropBlanks text with
    | [] => .error .unfinished
    | c :: rest =>
      if c = 'n' then readName ['u', 'l', 'l'] rest
      else if c = 't' then readName ['r', 'u', 'e'] rest
      else if c = 'f' then readName ['a', 'l', 's', 'e'] rest
      else if c = '"' then skipString rest
      else if c = '-' ∨ c.isDigit then skipNumber (c :: rest)
      else if c = '[' then
        match dropBlanks rest with
        | ']' :: rest => .ok rest
        | [] => .error .unfinished
        | rest => skipItemsWithin fuel rest
      else if c = '\x7b' then
        match dropBlanks rest with
        | '\x7d' :: rest => .ok rest
        | [] => .error .unfinished
        | rest => skipMembersWithin fuel rest
      else .error .malformed

-- At least one value, then the closing bracket
def skipItemsWithin : (fuel : Nat) → List Char → Except Problem (List Char)
  | 0, _ => .error .unfinished
  | fuel + 1, text => do
    match dropBlanks (← skipValueWithin fuel text) with
    | ',' :: rest => skipItemsWithin fuel rest
    | ']' :: rest => .ok rest
    | [] => .error .unfinished
    | _ => .error .malformed

-- At least one key with its value, then the closing brace
def skipMembersWithin : (fuel : Nat) → List Char → Except Problem (List Char)
  | 0, _ => .error .unfinished
  | fuel + 1, text => do
    match dropBlanks text with
    | '"' :: rest =>
      match dropBlanks (← skipString rest) with
      | ':' :: rest =>
        match dropBlanks (← skipValueWithin fuel rest) with
        | ',' :: rest => skipMembersWithin fuel rest
        | '\x7d' :: rest => .ok rest
        | [] => .error .unfinished
        | _ => .error .malformed
      | [] => .error .unfinished
      | _ => .error .malformed
    | [] => .error .unfinished
    | _ => .error .malformed

end

-- What follows the value that stands here
def skipValue (text : List Char) : Except Problem (List Char) :=
  skipValueWithin (text.length + 1) text

end TerminalRelay.Json
