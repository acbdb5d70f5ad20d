/-!
The lexical parts of a JSON text, read from the left: blanks, names, strings. Reading fails where
the text ends too early or has a character that cannot stand there.
-/

namespace TerminalRelay.Json

-- Why a text could not be read. A mismatch is good JSON of another shape than was wanted
inductive Problem where
  | unfinished
  | malformed
  | mismatch
deriving DecidableEq, Repr

def isBlank (c : Char) : Bool :=
  c == ' ' || c == '\n' || c == '\t' || c == '\r'

def dropBlanks (text : List Char) : List Char :=
  text.dropWhile isBlank

-- What follows a name that has to stand here
def readName : (name : List Char) → (text : List Char) → Except Problem (List Char)
  | [], text => .ok text
  | _ :: _, [] => .error .unfinished
  | expected :: name, c :: rest =>
    if c = expected then readName name rest else .error .malformed

def hexDigit? (c : Char) : Option Nat :=
  if '0' ≤ c ∧ c ≤ '9' then some (c.toNat - '0'.toNat)
  else if 'a' ≤ c ∧ c ≤ 'f' then some (c.toNat - 'a'.toNat + 10)
  else if 'A' ≤ c ∧ c ≤ 'F' then some (c.toNat - 'A'.toNat + 10)
  else none

-- A unit of sixteen bits, written in four hexadecimal digits
def hexUnit? (a b c d : Char) : Option Nat := do
  let high := 16 * (← hexDigit? a) + (← hexDigit? b)
  let low := 16 * (← hexDigit? c) + (← hexDigit? d)
  return 256 * high + low

-- Fewer than four characters are left for the digits of a unit. Where they are four bytes all the
-- same, one of them is no digit
def shortUnit (rest : List Char) : Problem :=
  if rest.foldl (fun size c => size + c.utf8Size) 0 < 4 then .unfinished else .malformed

def isLeading (unit : Nat) : Bool :=
  0xd800 ≤ unit && unit < 0xdc00

def isTrailing (unit : Nat) : Bool :=
  0xdc00 ≤ unit && unit < 0xe000

-- The character that a pair of surrogates stands for
def ofSurrogates (leading trailing : Nat) : Char :=
  Char.ofNat (0x10000 + 0x400 * (leading - 0xd800) + (trailing - 0xdc00))

-- What a backslash and this letter stand for
def unescape? (c : Char) : Option Char :=
  if c = '"' ∨ c = '\\' ∨ c = '/' then some c
  else if c = 'b' then some '\x08'
  else if c = 'f' then some '\x0c'
  else if c = 'n' then some '\n'
  else if c = 'r' then some '\r'
  else if c = 't' then some '\t'
  else none

def prepend (c : Char) (read : Except Problem (List Char × List Char)) :
    Except Problem (List Char × List Char) :=
  read.map fun (cs, rest) => (c :: cs, rest)

-- The rest of a string whose opening quote has been read, as the characters it stands for
def readString : List Char → Except Problem (List Char × List Char)
  | [] => .error .unfinished
  | c :: rest =>
    if c = '"' then .ok ([], rest)
    else if c < ' ' then .error .malformed
    else if c ≠ '\\' then prepend c (readString rest)
    else match rest with
      | [] => .error .unfinished
      | e :: rest =>
        if e ≠ 'u' then
          match unescape? e with
          | some c => prepend c (readString rest)
          | none => .error .malformed
        else match rest with
          | h₁ :: h₂ :: h₃ :: h₄ :: rest =>
            match hexUnit? h₁ h₂ h₃ h₄ with
            | none => .error .malformed
            | some unit =>
              if isTrailing unit then .error .malformed
              else if ¬ isLeading unit then prepend (Char.ofNat unit) (readString rest)
              -- a leading surrogate wants its trailing one at once
              else match rest with
                | [] => .error .unfinished
                | b :: rest =>
                  if b ≠ '\\' then .error .malformed
                  else match rest with
                    | [] => .error .unfinished
                    | u :: rest =>
                      if u ≠ 'u' then .error .malformed
                      else match rest with
                        | l₁ :: l₂ :: l₃ :: l₄ :: rest =>
                          match hexUnit? l₁ l₂ l₃ l₄ with
                          | none => .error .malformed
                          | some trailing =>
                            if isTrailing trailing then
                              prepend (ofSurrogates unit trailing) (readString rest)
                            else .error .malformed
                        | short => .error (shortUnit short)
          | short => .error (shortUnit short)

-- What follows a string that nobody wants; its surrogates need not be paired
def skipString : List Char → Except Problem (List Char)
  | [] => .error .unfinished
  | c :: rest =>
    if c = '"' then .ok rest
    else if c < ' ' then .error .malformed
    else if c ≠ '\\' then skipString rest
    else match rest with
      | [] => .error .unfinished
      | e :: rest =>
        if e ≠ 'u' then if (unescape? e).isSome then skipString rest else .error .malformed
        else match rest with
          | h₁ :: h₂ :: h₃ :: h₄ :: rest =>
            if (hexUnit? h₁ h₂ h₃ h₄).isSome then skipString rest else .error .malformed
          | short => .error (shortUnit short)

end TerminalRelay.Json
