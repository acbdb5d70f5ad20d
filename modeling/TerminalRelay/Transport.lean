import TerminalRelay.Byte

/-!
The transport encoding of the viewer stream. A stream is a list of items, data bytes and markers,
and is written in printable ASCII: a printable byte other than the backslash stands for itself, and
a backslash opens either the two hexadecimal digits of any other byte or the two letters of a
marker. No marker's letters are two hexadecimal digits, so data never reads as a marker.
-/

namespace TerminalRelay

-- What a viewer is told about its screen
inductive Marker where
  | primary
  | alternate
  | clear
  | save
  | restore
deriving DecidableEq, Repr

def Marker.letters : Marker → UInt8 × UInt8
  | primary => ('s'.toUInt8, '1'.toUInt8)
  | alternate => ('s'.toUInt8, '2'.toUInt8)
  | clear => ('c'.toUInt8, 'l'.toUInt8)
  | save => ('s'.toUInt8, 's'.toUInt8)
  | restore => ('r'.toUInt8, 's'.toUInt8)

def Marker.all : List Marker :=
  [primary, alternate, clear, save, restore]

def Marker.ofLetters? (first second : UInt8) : Option Marker :=
  all.find? fun marker => marker.letters = (first, second)

namespace Transport

inductive Item where
  | data (byte : UInt8)
  | marker (marker : Marker)
deriving DecidableEq, Repr

def passes (byte : UInt8) : Bool :=
  Byte.isPrintable byte && byte != Byte.backslash

def encodeByte (byte : UInt8) : Bytes :=
  if passes byte then [byte] else Byte.backslash :: Byte.hexDigits byte

def encode (bytes : Bytes) : Bytes :=
  bytes.flatMap encodeByte

def Item.render : Item → Bytes
  | data byte => encodeByte byte
  | marker m => [Byte.backslash, m.letters.1, m.letters.2]

def render (items : List Item) : Bytes :=
  items.flatMap Item.render

-- The item that a backslash and these two bytes write, if there is one: a byte that passes as it
-- is has no second form
def Item.ofPair? (first second : UInt8) : Option Item :=
  match Marker.ofLetters? first second with
  | some m => some (marker m)
  | none => do
    let byte := (← Byte.hexValue? first) <<< 4 ||| (← Byte.hexValue? second)
    if passes byte then none else some (data byte)

def decode : Bytes → Option (List Item)
  | [] => some []
  | byte :: rest =>
    if passes byte then return .data byte :: (← decode rest)
    else if byte = Byte.backslash then
      match rest with
      | first :: second :: rest => return (← Item.ofPair? first second) :: (← decode rest)
      | _ => none
    else none

end Transport

end TerminalRelay
