import TerminalRelay.Json.Basic

/-!
The two ways a document is written: in one line without blanks, and spread over lines, two blanks
deeper for each level. An empty list or object keeps its brackets together in both.
-/

namespace TerminalRelay.Json

def hexDigit (value : Nat) : Char :=
  if value < 10 then Char.ofNat (0x30 + value) else Char.ofNat (0x57 + value)

-- Quote, backslash and control characters cannot stand for themselves
def escape (c : Char) : List Char :=
  if c = '"' then ['\\', '"']
  else if c = '\\' then ['\\', '\\']
  else if c = '\x08' then ['\\', 'b']
  else if c = '\t' then ['\\', 't']
  else if c = '\n' then ['\\', 'n']
  else if c = '\x0c' then ['\\', 'f']
  else if c = '\r' then ['\\', 'r']
  else if c < ' ' then ['\\', 'u', '0', '0', hexDigit (c.toNat / 16), hexDigit (c.toNat % 16)]
  else [c]

def quoted (text : String) : List Char :=
  '"' :: text.toList.flatMap escape ++ ['"']

def truth (value : Bool) : List Char :=
  if value then ['t', 'r', 'u', 'e'] else ['f', 'a', 'l', 's', 'e']

def digits (value : Nat) : List Char :=
  Nat.toDigits 10 value

def indent (depth : Nat) : List Char :=
  '\n' :: List.replicate (2 * depth) ' '

mutual

def compactChars : Json → List Char
  | .null => ['n', 'u', 'l', 'l']
  | .bool value => truth value
  | .number value => digits value
  | .string text => quoted text
  | .array items => '[' :: compactItems items ++ [']']
  | .object fields => '\x7b' :: compactFields fields ++ ['\x7d']

def compactItems : List Json → List Char
  | [] => []
  | [item] => item.compactChars
  | item :: rest => item.compactChars ++ ',' :: compactItems rest

def compactFields : List (String × Json) → List Char
  | [] => []
  | [(key, value)] => quoted key ++ ':' :: value.compactChars
  | (key, value) :: rest =>
    quoted key ++ ':' :: value.compactChars ++ ',' :: compactFields rest

end

mutual

def prettyChars (depth : Nat) : Json → List Char
  | .null => ['n', 'u', 'l', 'l']
  | .bool value => truth value
  | .number value => digits value
  | .string text => quoted text
  | .array [] => ['[', ']']
  | .array (item :: rest) => '[' :: prettyItems (depth + 1) (item :: rest) ++ indent depth ++ [']']
  | .object [] => ['\x7b', '\x7d']
  | .object (field :: rest) =>
    '\x7b' :: prettyFields (depth + 1) (field :: rest) ++ indent depth ++ ['\x7d']

def prettyItems (depth : Nat) : List Json → List Char
  | [] => []
  | [item] => indent depth ++ item.prettyChars depth
  | item :: rest => indent depth ++ item.prettyChars depth ++ ',' :: prettyItems depth rest

def prettyFields (depth : Nat) : List (String × Json) → List Char
  | [] => []
  | [(key, value)] => indent depth ++ quoted key ++ ':' :: ' ' :: value.prettyChars depth
  | (key, value) :: rest =>
    indent depth ++ quoted key ++ ':' :: ' ' :: value.prettyChars depth ++
      ',' :: prettyFields depth rest

end

def compact (document : Json) : String :=
  String.ofList document.compactChars

def pretty (document : Json) : String :=
  String.ofList (document.prettyChars 0)

end TerminalRelay.Json
