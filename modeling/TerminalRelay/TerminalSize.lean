import TerminalRelay.Modes

/-!
The size of a terminal as it is written on a command line: `COLSxROWS`, two numbers of 16 bits.
-/

namespace TerminalRelay

-- Why a text is no number of 16 bits
inductive NumeralError where
  | empty
  | invalidDigit
  | tooLarge
deriving DecidableEq, Repr

def NumeralError.message : NumeralError → String
  | empty => "cannot parse integer from empty string"
  | invalidDigit => "invalid digit found in string"
  | tooLarge => "number too large to fit in target type"

inductive SizeError where
  | format
  | columns (cause : NumeralError)
  | rows (cause : NumeralError)
  | zero
deriving DecidableEq, Repr

-- The message, then that of its cause
def SizeError.chain : SizeError → List String
  | format => ["Invalid size format, expected COLSxROWS like 80x24"]
  | columns cause => ["Invalid columns", cause.message]
  | rows cause => ["Invalid rows", cause.message]
  | zero => ["Terminal size must be non-zero"]

namespace Numeral

-- The digits are read from the left, and the first fault met decides
def readDigits (value : Nat) : List Char → Except NumeralError Nat
  | [] => .ok value
  | c :: rest =>
    if c.isDigit then
      let value := 10 * value + (c.toNat - '0'.toNat)
      if value < Nat.pow 2 16 then readDigits value rest else .error .tooLarge
    else .error .invalidDigit

-- A plus sign may stand before the digits, but not alone
def read : List Char → Except NumeralError Nat
  | [] => .error .empty
  | ['+'] => .error .invalidDigit
  | '+' :: digits => readDigits 0 digits
  | digits => readDigits 0 digits

end Numeral

namespace WindowSize

def parseChars (text : List Char) : Except SizeError WindowSize :=
  let cols := text.takeWhile (· != 'x')
  match text.dropWhile (· != 'x') with
  | [] => .error .format
  | _ :: rows =>
    if rows.contains 'x' then .error .format
    else match Numeral.read cols with
      | .error cause => .error (.columns cause)
      | .ok cols =>
        match Numeral.read rows with
        | .error cause => .error (.rows cause)
        | .ok rows => if cols = 0 ∨ rows = 0 then .error .zero else .ok { rows, cols }

def parse (text : String) : Except SizeError WindowSize :=
  parseChars text.toList

end WindowSize

end TerminalRelay
