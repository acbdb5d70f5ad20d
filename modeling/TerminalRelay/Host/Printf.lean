import TerminalRelay.Byte

/-!
The formats of `printf`: escapes, and directives that take their arguments in order. A format that
takes arguments is used again as long as some are left.
-/

namespace TerminalRelay.Host.Printf

inductive Piece where
  | byte (byte : UInt8)
  -- what stands between the percent sign and the letter, and the letter
  | directive (layout : Bytes) (letter : UInt8)
deriving DecidableEq, Repr

def octalDigit? (byte : UInt8) : Option UInt8 :=
  if 0x30 ≤ byte ∧ byte ≤ 0x37 then some (byte - 0x30) else none

-- What a backslash and this letter stand for; an unknown letter keeps its backslash
def escape (letter : UInt8) : Bytes :=
  if letter = '\\'.toUInt8 then [Byte.backslash]
  else if letter = '"'.toUInt8 then [letter]
  else if letter = 'a'.toUInt8 then [Byte.bel]
  else if letter = 'b'.toUInt8 then [Byte.backspace]
  else if letter = 'e'.toUInt8 then [Byte.escape]
  else if letter = 'f'.toUInt8 then [0x0c]
  else if letter = 'n'.toUInt8 then [Byte.newline]
  else if letter = 'r'.toUInt8 then [Byte.carriageReturn]
  else if letter = 't'.toUInt8 then [Byte.tab]
  else if letter = 'v'.toUInt8 then [0x0b]
  else [Byte.backslash, letter]

-- Within which construct of a format a byte is read
inductive Reading where
  | plain
  | escape
  | octal (value : UInt8) (digits : Nat)
  | directive (layout : Bytes)
deriving DecidableEq, Repr

def readPlain (directives : Bool) (byte : UInt8) : Reading × List Piece :=
  if directives ∧ byte = '%'.toUInt8 then (.directive [], [])
  else if byte = Byte.backslash then (.escape, [])
  else (.plain, [.byte byte])

-- Flags, width and precision
def isLayout (byte : UInt8) : Bool :=
  Byte.isDigit byte || byte == '-'.toUInt8 || byte == '.'.toUInt8

-- Up to three octal digits after a backslash are one byte
def read (directives : Bool) (reading : Reading) (byte : UInt8) : Reading × List Piece :=
  match reading with
  | .plain => readPlain directives byte
  | .escape =>
    match octalDigit? byte with
    | some digit => (.octal digit 1, [])
    | none => (.plain, (escape byte).map .byte)
  | .octal value digits =>
    match octalDigit? byte with
    | some digit =>
      if digits < 2 then (.octal (8 * value + digit) (digits + 1), [])
      else (.plain, [.byte (8 * value + digit)])
    | none =>
      let (reading, pieces) := readPlain directives byte
      (reading, .byte value :: pieces)
  | .directive layout =>
    if isLayout byte then (.directive (layout ++ [byte]), [])
    else (.plain, [.directive layout byte])

-- What a construct that the format breaks off comes to
def atEnd : Reading → List Piece
  | .plain => []
  | .escape => [.byte Byte.backslash]
  | .octal value _ => [.byte value]
  | .directive layout => ('%'.toUInt8 :: layout).map .byte

def piecesFrom (directives : Bool) (reading : Reading) : Bytes → List Piece
  | [] => atEnd reading
  | byte :: rest =>
    let (reading, pieces) := read directives reading byte
    pieces ++ piecesFrom directives reading rest

def pieces (directives : Bool) (format : Bytes) : List Piece :=
  piecesFrom directives .plain format

-- The bytes of a text with its escapes resolved
def unescape (text : Bytes) : Bytes :=
  (pieces false text).flatMap fun
    | .byte byte => [byte]
    | .directive _ _ => []

def integer (argument : Bytes) : Int :=
  ((Bytes.toText argument).toInt?).getD 0

-- The argument's text as the letter asks for it; one that is missing counts as empty
def convert (letter : UInt8) (argument : Bytes) : Bytes :=
  if letter = 's'.toUInt8 then argument
  else if letter = 'b'.toUInt8 then unescape argument
  else if letter = 'c'.toUInt8 then argument.take 1
  else if letter = 'd'.toUInt8 ∨ letter = 'i'.toUInt8 ∨ letter = 'u'.toUInt8 then
    Bytes.ofText (toString (integer argument))
  else if letter = 'x'.toUInt8 then
    Bytes.ofText (String.ofList (Nat.toDigits 16 (integer argument).toNat))
  else if letter = 'o'.toUInt8 then
    Bytes.ofText (String.ofList (Nat.toDigits 8 (integer argument).toNat))
  else ['%'.toUInt8, letter]

-- A text of at most so many bytes as the layout's precision gives, filled up to its width: on the
-- right after a dash, with zeros before a number
def lay (layout : Bytes) (letter : UInt8) (text : Bytes) : Bytes :=
  let flags := layout.takeWhile fun byte => byte == '-'.toUInt8 || byte == '0'.toUInt8
  let width := Byte.decimal ((layout.drop flags.length).takeWhile Byte.isDigit)
  let precision := layout.dropWhile fun byte => byte != '.'.toUInt8
  let isText := letter == 's'.toUInt8 || letter == 'b'.toUInt8 || letter == 'c'.toUInt8
  let text :=
    if isText ∧ precision ≠ [] then text.take (Byte.decimal (precision.drop 1)) else text
  let missing := width - text.length
  if flags.contains '-'.toUInt8 then text ++ List.replicate missing Byte.space
  else if flags.contains '0'.toUInt8 ∧ ¬ isText then List.replicate missing '0'.toUInt8 ++ text
  else List.replicate missing Byte.space ++ text

-- The format used once, and the arguments it left
def once : List Piece → List Bytes → Bytes × List Bytes
  | [], arguments => ([], arguments)
  | .byte byte :: rest, arguments =>
    let (text, left) := once rest arguments
    (byte :: text, left)
  | .directive layout letter :: rest, arguments =>
    if letter = '%'.toUInt8 then
      let (text, left) := once rest arguments
      (letter :: text, left)
    else
      let (text, left) := once rest (arguments.drop 1)
      (lay layout letter (convert letter (arguments.headD [])) ++ text, left)

def repeated : (limit : Nat) → List Piece → List Bytes → Bytes
  | 0, _, _ => []
  | limit + 1, format, arguments =>
    let (text, left) := once format arguments
    if left.isEmpty ∨ left.length = arguments.length then text
    else text ++ repeated limit format left

def print (format : Bytes) (arguments : List Bytes) : Bytes :=
  repeated (arguments.length + 1) (pieces true format) arguments

end TerminalRelay.Host.Printf
