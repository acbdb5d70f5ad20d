import TerminalRelay.Byte

/-!
Bytes read as UTF-8, with a replacement character for each part that is none. Such a part is as
long as it could still have begun a character, and at least one byte.
-/

namespace TerminalRelay.Lossy

def replacement : Char :=
  Char.ofNat 0xfffd

-- A character begun: the bits read so far, the bytes it still lacks, and between what bounds the
-- next of them must lie
structure Partial where
  bits : Nat
  missing : Nat
  low : UInt8
  high : UInt8
deriving DecidableEq, Repr

inductive Progress where
  | char (c : Char)
  | more (begun : Partial)
deriving DecidableEq, Repr

-- What a byte begins, if it begins a character. The bounds of the second byte keep out overlong
-- forms, surrogates and what lies beyond the last code point
def start? (byte : UInt8) : Option Progress :=
  if byte ≤ 0x7f then some (.char (Char.ofNat byte.toNat))
  else if 0xc2 ≤ byte ∧ byte ≤ 0xdf then some (.more ⟨byte.toNat - 0xc0, 1, 0x80, 0xbf⟩)
  else if byte = 0xe0 then some (.more ⟨0, 2, 0xa0, 0xbf⟩)
  else if byte = 0xed then some (.more ⟨0xd, 2, 0x80, 0x9f⟩)
  else if 0xe1 ≤ byte ∧ byte ≤ 0xef then some (.more ⟨byte.toNat - 0xe0, 2, 0x80, 0xbf⟩)
  else if byte = 0xf0 then some (.more ⟨0, 3, 0x90, 0xbf⟩)
  else if 0xf1 ≤ byte ∧ byte ≤ 0xf3 then some (.more ⟨byte.toNat - 0xf0, 3, 0x80, 0xbf⟩)
  else if byte = 0xf4 then some (.more ⟨4, 3, 0x80, 0x8f⟩)
  else none

-- Only for a byte within the bounds
def Partial.next (begun : Partial) (byte : UInt8) : Progress :=
  let bits := 64 * begun.bits + (byte.toNat - 0x80)
  if begun.missing = 1 then .char (Char.ofNat bits)
  else .more ⟨bits, begun.missing - 1, 0x80, 0xbf⟩

def decodeFrom : Option Partial → Bytes → List Char
  | none, [] => []
  | some _, [] => [replacement]
  | none, byte :: rest =>
    match start? byte with
    | some (.char c) => c :: decodeFrom none rest
    | some (.more begun) => decodeFrom (some begun) rest
    | none => replacement :: decodeFrom none rest
  | some begun, byte :: rest =>
    if begun.low ≤ byte ∧ byte ≤ begun.high then
      match begun.next byte with
      | .char c => c :: decodeFrom none rest
      | .more begun => decodeFrom (some begun) rest
    else
      -- the part ends before this byte, which is read afresh
      replacement :: match start? byte with
        | some (.char c) => c :: decodeFrom none rest
        | some (.more begun) => decodeFrom (some begun) rest
        | none => replacement :: decodeFrom none rest

def decode (bytes : Bytes) : String :=
  String.ofList (decodeFrom none bytes)

end TerminalRelay.Lossy
