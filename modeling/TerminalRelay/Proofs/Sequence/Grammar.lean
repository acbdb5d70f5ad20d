import TerminalRelay.Sequence
import Mathlib.Data.List.Basic

namespace TerminalRelay.Sequence

-- The bytes between `ESC [` and the final byte of a control sequence
def IsParameter (byte : UInt8) : Prop :=
  0x20 ≤ byte ∧ byte ≤ 0x3f

def IsControlFinal (byte : UInt8) : Prop :=
  0x40 ≤ byte ∧ byte ≤ 0x7e

-- The bytes between ESC and the final byte of any other sequence
def IsIntermediate (byte : UInt8) : Prop :=
  0x20 ≤ byte ∧ byte ≤ 0x2f

def IsEscapeFinal (byte : UInt8) : Prop :=
  0x30 ≤ byte ∧ byte ≤ 0x7e

instance : DecidablePred IsParameter := fun _ => inferInstanceAs (Decidable (_ ∧ _))

instance : DecidablePred IsControlFinal := fun _ => inferInstanceAs (Decidable (_ ∧ _))

instance : DecidablePred IsIntermediate := fun _ => inferInstanceAs (Decidable (_ ∧ _))

instance : DecidablePred IsEscapeFinal := fun _ => inferInstanceAs (Decidable (_ ∧ _))

-- The beginnings of sequences that need more bytes
inductive Open : Bytes → Prop
  | escape : Open [Byte.escape]
  | control (body : Bytes) (hbody : ∀ byte ∈ body, IsParameter byte) :
      Open (Byte.escape :: '['.toUInt8 :: body)
  | intermediates (bytes : Bytes) (hne : bytes ≠ [])
      (hbytes : ∀ byte ∈ bytes, IsIntermediate byte) : Open (Byte.escape :: bytes)

def controlSequence (body : Bytes) (final : UInt8) : Bytes :=
  Byte.escape :: '['.toUInt8 :: (body ++ [final])

-- A count as it may be written: none at all, or any digits for a number of 64 bits
def IsCount (digits : Bytes) : Prop :=
  (∀ digit ∈ digits, Byte.isDigit digit = true) ∧ Byte.decimal digits < Nat.pow 2 64

def IsPrivateMode (digits : Bytes) : Prop :=
  (∀ digit ∈ digits, Byte.isDigit digit = true) ∧ Byte.decimal digits ∈ [1, 47, 1047, 1049]

-- The instances below name the one for lists, since bytes are few enough for another to be found.

instance : DecidablePred IsCount := fun digits =>
  have := List.decidableBAll (fun digit => Byte.isDigit digit = true) digits
  inferInstanceAs (Decidable (_ ∧ _))

instance : DecidablePred IsPrivateMode := fun digits =>
  have := List.decidableBAll (fun digit => Byte.isDigit digit = true) digits
  inferInstanceAs (Decidable (_ ∧ _))

-- No count means one, and so does zero.
def count (digits : Bytes) : Nat :=
  if Byte.decimal digits = 0 then 1 else Byte.decimal digits

-- The control sequences with an effect on the line or the modes
def IsUnderstood (body : Bytes) (final : UInt8) : Prop :=
  (final = 'K'.toUInt8 ∧ (body = [] ∨ body = ['0'.toUInt8])) ∨
  (final ∈ ['A'.toUInt8, 'C'.toUInt8, 'P'.toUInt8] ∧ IsCount body) ∨
  (final ∈ ['h'.toUInt8, 'l'.toUInt8] ∧
    body.head? = some '?'.toUInt8 ∧ IsPrivateMode body.tail)

instance (body : Bytes) (final : UInt8) : Decidable (IsUnderstood body final) :=
  inferInstanceAs (Decidable (_ ∨ _ ∨ _))

-- The number of a mode that switches screens
def modeNumber : ScreenMode → Nat
  | .mode47 => 47
  | .mode1047 => 1047
  | .mode1049 => 1049

-- What they do
inductive Means : (body : Bytes) → (final : UInt8) → Action → Prop
  | eraseToEnd (body : Bytes) (hbody : body = [] ∨ body = ['0'.toUInt8]) :
      Means body 'K'.toUInt8 .eraseToEnd
  | cursorUp (digits : Bytes) (hcount : IsCount digits) :
      Means digits 'A'.toUInt8 (.cursorUp (count digits))
  | cursorForward (digits : Bytes) (hcount : IsCount digits) :
      Means digits 'C'.toUInt8 (.cursorForward (count digits))
  | deleteChars (digits : Bytes) (hcount : IsCount digits) :
      Means digits 'P'.toUInt8 (.deleteChars (count digits))
  | appCursor (digits : Bytes) (on : Bool)
      (hdigits : ∀ digit ∈ digits, Byte.isDigit digit = true) (hmode : Byte.decimal digits = 1) :
      Means ('?'.toUInt8 :: digits) (if on then 'h'.toUInt8 else 'l'.toUInt8) (.appCursor on)
  | altScreen (digits : Bytes) (mode : ScreenMode) (on : Bool)
      (hdigits : ∀ digit ∈ digits, Byte.isDigit digit = true)
      (hmode : Byte.decimal digits = modeNumber mode) :
      Means ('?'.toUInt8 :: digits) (if on then 'h'.toUInt8 else 'l'.toUInt8) (.altScreen mode on)

-- The whole sequences. A final byte right after ESC is none of the two introducers.
inductive Complete : Bytes → Prop
  | control (body : Bytes) (final : UInt8) (hbody : ∀ byte ∈ body, IsParameter byte)
      (hfinal : IsControlFinal final) : Complete (controlSequence body final)
  | escape (intermediates : Bytes) (final : UInt8)
      (hintermediates : ∀ byte ∈ intermediates, IsIntermediate byte) (hfinal : IsEscapeFinal final)
      (hother : intermediates = [] → final ∉ ['['.toUInt8, ']'.toUInt8]) :
      Complete (Byte.escape :: (intermediates ++ [final]))

-- Backspaces may come among the bytes of a sequence without being part of it.
def kept (bytes : Bytes) : Bytes :=
  bytes.filter (· ≠ Byte.backspace)

def backspaces (bytes : Bytes) : Bytes :=
  bytes.filter (· = Byte.backspace)

end TerminalRelay.Sequence
