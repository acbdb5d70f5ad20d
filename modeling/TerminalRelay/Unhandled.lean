import TerminalRelay.Byte

/-!
The history of escape sequences that mean nothing to the relay. It keeps the latest of them, up to
a fixed number, and counts those that had to go.
-/

namespace TerminalRelay

structure Unhandled where
  raw : Bytes
deriving DecidableEq, Repr

namespace Unhandled

-- ESC as `\e`, printable bytes as they are, the others as `\x` and two digits
def printableByte (byte : UInt8) : Bytes :=
  if byte = Byte.escape then [Byte.backslash, 'e'.toUInt8]
  else if Byte.isPrintable byte then [byte]
  else Byte.backslash :: 'x'.toUInt8 :: Byte.hexDigits byte

def printable (entry : Unhandled) : String :=
  Bytes.toText (entry.raw.flatMap printableByte)

def hex (entry : Unhandled) : String :=
  Bytes.hex entry.raw

end Unhandled

structure History where
  capacity : Nat
  entries : List Unhandled := []
  dropped : Nat := 0
deriving DecidableEq, Repr

namespace History

-- At capacity the oldest entry makes room; a history without room drops the newcomer
def push (history : History) (raw : Bytes) : History :=
  if history.capacity = 0 then { history with dropped := history.dropped + 1 }
  else if history.entries.length < history.capacity then
    { history with entries := history.entries ++ [⟨raw⟩] }
  else
    { history with
      entries := history.entries.drop 1 ++ [⟨raw⟩]
      dropped := history.dropped + 1 }

def clear (history : History) : History :=
  { history with entries := [], dropped := 0 }

end History

end TerminalRelay
