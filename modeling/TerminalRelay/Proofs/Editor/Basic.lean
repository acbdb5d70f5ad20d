import TerminalRelay.Proofs.Sequence.Grammar
import TerminalRelay.Modes

namespace TerminalRelay

-- A line of text and a cursor in it, the modes the child has set, and the lines it has ended, each
-- with its newline. There is no ring and no reader here.
structure Editor where
  text : Bytes
  cursor : Nat
  altScreen : Bool
  appCursor : Bool
  log : Bytes
deriving DecidableEq, Repr

namespace Editor

open Sequence

-- Well-formed output, piece by piece
inductive Token where
  | text (byte : UInt8)
  | newline
  | carriageReturn
  | backspace
  -- a control byte without effect on the line
  | control (byte : UInt8)
  | eraseToEnd (zero : Bool)
  | cursorUp (digits : Bytes)
  | cursorForward (digits : Bytes)
  | deleteChars (digits : Bytes)
  | privateMode (digits : Bytes) (on : Bool)
  -- any other control sequence, or one that is too long to be understood
  | otherControl (body : Bytes) (final : UInt8)
  -- a sequence that ESC alone introduces
  | otherEscape (intermediates : Bytes) (final : UInt8)
deriving DecidableEq, Repr

def Token.bytes : Token → Bytes
  | text byte => [byte]
  | newline => [Byte.newline]
  | carriageReturn => [Byte.carriageReturn]
  | backspace => [Byte.backspace]
  | control byte => [byte]
  | eraseToEnd zero => controlSequence (if zero then ['0'.toUInt8] else []) 'K'.toUInt8
  | cursorUp digits => controlSequence digits 'A'.toUInt8
  | cursorForward digits => controlSequence digits 'C'.toUInt8
  | deleteChars digits => controlSequence digits 'P'.toUInt8
  | privateMode digits on =>
    controlSequence ('?'.toUInt8 :: digits) (if on then 'h'.toUInt8 else 'l'.toUInt8)
  | otherControl body final => controlSequence body final
  | otherEscape intermediates final => Byte.escape :: (intermediates ++ [final])

-- Which pieces there are, where sequences of up to `limit` bytes are kept
def Token.WellFormed (limit : Nat) : Token → Prop
  | text byte => byte = Byte.tab ∨ (0x20 ≤ byte ∧ byte ≤ 0x7e) ∨ 0x80 ≤ byte
  | newline | carriageReturn | backspace => True
  | control byte =>
    (byte < 0x20 ∨ byte = Byte.delete) ∧
      byte ∉ [Byte.tab, Byte.newline, Byte.carriageReturn, Byte.backspace, Byte.escape]
  | eraseToEnd _ => True
  | cursorUp digits | cursorForward digits | deleteChars digits =>
    IsCount digits ∧ digits.length + 3 ≤ limit
  | privateMode digits _ => IsPrivateMode digits ∧ digits.length + 4 ≤ limit
  | otherControl body final =>
    (∀ byte ∈ body, Sequence.IsParameter byte) ∧ Sequence.IsControlFinal final ∧
      (IsUnderstood body final → limit < body.length + 3)
  | otherEscape intermediates final =>
    (∀ byte ∈ intermediates, Sequence.IsIntermediate byte) ∧ Sequence.IsEscapeFinal final ∧
      (intermediates = [] → final ∉ ['['.toUInt8, ']'.toUInt8]) ∧
      intermediates.length + 2 ≤ limit

instance decidableWellFormed (limit : Nat) : (token : Token) → Decidable (token.WellFormed limit)
  | .text _ => inferInstanceAs (Decidable (_ ∨ _ ∨ _))
  | .newline | .carriageReturn | .backspace | .eraseToEnd _ => inferInstanceAs (Decidable True)
  | .control _ => inferInstanceAs (Decidable (_ ∧ _))
  | .cursorUp _ | .cursorForward _ | .deleteChars _ => inferInstanceAs (Decidable (_ ∧ _))
  | .privateMode _ _ => inferInstanceAs (Decidable (_ ∧ _))
  | .otherControl body _ =>
    have := List.decidableBAll IsParameter body
    inferInstanceAs (Decidable (_ ∧ _ ∧ (_ → _)))
  | .otherEscape intermediates _ =>
    have := List.decidableBAll IsIntermediate intermediates
    inferInstanceAs (Decidable (_ ∧ _ ∧ (_ → _) ∧ _))

-- The first column of the row that a position of the line is in; without a window there is one row.
def rowStart (window : Option WindowSize) (position : Nat) : Nat :=
  match window with
  | none => 0
  | some size => position - position % size.cols

-- What a piece does to a line that may grow up to `capacity`
def apply (capacity : Nat) (window : Option WindowSize) (e : Editor) : Token → Editor
  | .text byte =>
    { e with text := e.text.take e.cursor ++ byte :: e.text.drop (e.cursor + 1)
             cursor := e.cursor + 1 }
  | .newline => { e with text := [], cursor := 0, log := e.log ++ e.text ++ [Byte.newline] }
  | .carriageReturn => { e with cursor := rowStart window e.cursor }
  | .backspace => { e with cursor := e.cursor - 1 }
  | .eraseToEnd _ => { e with text := e.text.take e.cursor }
  | .cursorUp digits =>
    match window with
    | none => e
    | some size => { e with cursor := e.cursor - count digits * size.cols }
  | .cursorForward digits =>
    if e.cursor < e.text.length then
      { e with cursor := min (e.cursor + count digits) e.text.length }
    else if e.cursor < capacity then
      { e with text := e.text ++ [Byte.space], cursor := e.cursor + 1 }
    else e
  | .deleteChars digits =>
    if count digits < e.text.length - e.cursor then
      { e with text := e.text.take e.cursor ++ e.text.drop (e.cursor + count digits) }
    else e
  | .privateMode digits on =>
    if Byte.decimal digits = 1 then { e with appCursor := on } else { e with altScreen := on }
  | .control _ | .otherControl _ _ | .otherEscape _ _ => e

def applyAll (capacity : Nat) (window : Option WindowSize) (e : Editor) (tokens : List Token) :
    Editor :=
  tokens.foldl (apply capacity window) e

def Token.isText : Token → Bool
  | text _ => true
  | _ => false

-- No text byte comes where the cursor stands at the capacity.
def Fits (capacity : Nat) (window : Option WindowSize) : Editor → List Token → Prop
  | _, [] => True
  | e, token :: rest =>
    (token.isText = true → e.cursor < capacity) ∧
      Fits capacity window (e.apply capacity window token) rest

instance decidableFits (capacity : Nat) (window : Option WindowSize) :
    (e : Editor) → (tokens : List Token) → Decidable (Fits capacity window e tokens)
  | _, [] => inferInstanceAs (Decidable True)
  | e, token :: rest =>
    have := decidableFits capacity window (e.apply capacity window token) rest
    inferInstanceAs (Decidable (_ ∧ _))

end Editor

end TerminalRelay
