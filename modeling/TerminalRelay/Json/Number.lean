import TerminalRelay.Json.Scanner

/-!
Numbers in a JSON text. One that is a natural number of 64 bits is read as such; any other is only
checked, for its grammar and for lying within the range of double precision.
-/

namespace TerminalRelay.Json

-- A number as it is written
structure NumberText where
  negative : Bool
  whole : List Char
  -- empty where there is no point
  fraction : List Char
  -- the sign of the exponent and its digits, empty where there is none
  shrinks : Bool
  exponent : List Char
deriving DecidableEq, Repr

def takeDigits (text : List Char) : List Char × List Char :=
  (text.takeWhile Char.isDigit, text.dropWhile Char.isDigit)

-- At least one digit has to stand here
def needDigits (text : List Char) : Except Problem (List Char × List Char) :=
  match takeDigits text with
  | ([], []) => .error .unfinished
  | ([], _ :: _) => .error .malformed
  | (digits, rest) => .ok (digits, rest)

def readWhole (text : List Char) : Except Problem (List Char × List Char) := do
  match ← needDigits text with
  | ('0' :: _ :: _, _) => .error .malformed
  | whole => return whole

def readFraction : List Char → Except Problem (List Char × List Char)
  | '.' :: rest => needDigits rest
  | rest => return ([], rest)

def readExponent : List Char → Except Problem ((Bool × List Char) × List Char)
  | c :: rest =>
    if c = 'e' ∨ c = 'E' then do
      let (shrinks, rest) := match rest with
        | '-' :: rest => (true, rest)
        | '+' :: rest => (false, rest)
        | rest => (false, rest)
      let (digits, rest) ← needDigits rest
      return ((shrinks, digits), rest)
    else return ((false, []), c :: rest)
  | [] => return ((false, []), [])

def readNumberText (text : List Char) : Except Problem (NumberText × List Char) := do
  let (negative, rest) := match text with
    | '-' :: rest => (true, rest)
    | rest => (false, rest)
  let (whole, rest) ← readWhole rest
  let (fraction, rest) ← readFraction rest
  let ((shrinks, exponent), rest) ← readExponent rest
  return ({ negative, whole, fraction, shrinks, exponent }, rest)

def digitValue (c : Char) : Nat :=
  c.toNat - '0'.toNat

-- Adds digits to a significand as long as it stays below 2^64, and counts those left out
def absorb (significand : Nat) : List Char → Nat × Nat
  | [] => (significand, 0)
  | c :: rest =>
    let longer := 10 * significand + digitValue c
    if longer < Nat.pow 2 64 then absorb longer rest else (significand, rest.length + 1)

def decimal (digits : List Char) : Nat :=
  digits.foldl (fun value c => 10 * value + digitValue c) 0

namespace NumberText

-- The first digits that fit 64 bits, and the power of ten they are to be scaled by
def scaled (number : NumberText) : Nat × Int :=
  let (whole, surplus) := absorb 0 number.whole
  let (significand, left) := absorb whole number.fraction
  let exponent : Int := if number.shrinks then -decimal number.exponent else decimal number.exponent
  (significand, surplus - (number.fraction.length - left) + exponent)

-- The nearest number with 53 significant bits, the even one of two
def roundDouble (n : Nat) : Nat :=
  let unit := Nat.pow 2 (n.log2 - 52)
  let below := n / unit * unit
  let twice := 2 * (n - below)
  if twice < unit ∨ (twice = unit ∧ n / unit % 2 = 0) then below else below + unit

-- From here on a product is nearer to 2^1024 than to any double below it
def doubleBound : Nat :=
  Nat.pow 2 1024 - Nat.pow 2 970

def overflows (number : NumberText) : Bool :=
  let (significand, exponent) := number.scaled
  if significand = 0 ∨ exponent < 0 then false
  else if 308 < exponent then true
  else doubleBound ≤ roundDouble significand * roundDouble (Nat.pow 10 exponent.toNat)

def natural? (number : NumberText) : Option Nat :=
  if number.negative ∨ number.fraction ≠ [] ∨ number.exponent ≠ [] then none
  else if (absorb 0 number.whole).2 = 0 then some (absorb 0 number.whole).1
  else none

end NumberText

def readNumber (text : List Char) : Except Problem (Option Nat × List Char) := do
  let (written, rest) ← readNumberText text
  if written.overflows then .error .malformed else return (written.natural?, rest)

-- What follows a number that nobody wants; only its grammar counts, and a text that ends within it
-- is as wrong as any other
def skipNumber (text : List Char) : Except Problem (List Char) :=
  match readNumberText text with
  | .ok (_, rest) => .ok rest
  | .error _ => .error .malformed

end TerminalRelay.Json
