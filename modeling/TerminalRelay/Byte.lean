/-!
Bytes: the control bytes the relay looks at, the classes its grammars are built from, and the two
hexadecimal digits of a byte.
-/

namespace TerminalRelay

abbrev Bytes := List UInt8

namespace Byte

def bel : UInt8 := 0x07
def backspace : UInt8 := 0x08
def tab : UInt8 := 0x09
def newline : UInt8 := 0x0a
def carriageReturn : UInt8 := 0x0d
def escape : UInt8 := 0x1b
def space : UInt8 := 0x20
def backslash : UInt8 := 0x5c
def delete : UInt8 := 0x7f

def isPrintable (byte : UInt8) : Bool :=
  0x20 ≤ byte && byte ≤ 0x7e

def isDigit (byte : UInt8) : Bool :=
  0x30 ≤ byte && byte ≤ 0x39

-- Only for a byte that is a decimal digit
def digitValue (byte : UInt8) : Nat :=
  byte.toNat - 0x30

-- The number that a run of decimal digits denotes, leading zeros allowed
def decimal (digits : Bytes) : Nat :=
  digits.foldl (fun value digit => 10 * value + digitValue digit) 0

-- Only for a value below 16; the letters are lower case
def hexDigit (value : UInt8) : UInt8 :=
  if value < 10 then 0x30 + value else 0x57 + value

def hexDigits (byte : UInt8) : Bytes :=
  [hexDigit (byte >>> 4), hexDigit (byte &&& 0x0f)]

-- The value of a lower-case hexadecimal digit
def hexValue? (byte : UInt8) : Option UInt8 :=
  if 0x30 ≤ byte ∧ byte ≤ 0x39 then some (byte - 0x30)
  else if 0x61 ≤ byte ∧ byte ≤ 0x66 then some (byte - 0x57)
  else none

end Byte

namespace Bytes

-- One character for each byte, the one whose code point is the byte
def toText (bytes : Bytes) : String :=
  String.ofList (bytes.map fun byte => Char.ofNat byte.toNat)

def ofText (text : String) : Bytes :=
  text.toUTF8.toList

def hex (bytes : Bytes) : String :=
  toText (bytes.flatMap Byte.hexDigits)

def ofHexDigits? : Bytes → Option Bytes
  | [] => some []
  | [_] => none
  | high :: low :: rest => do
    let byte := (← Byte.hexValue? high) <<< 4 ||| (← Byte.hexValue? low)
    return byte :: (← ofHexDigits? rest)

-- Reads what `hex` writes
def ofHex? (text : String) : Option Bytes :=
  ofHexDigits? (ofText text)

end Bytes

end TerminalRelay
