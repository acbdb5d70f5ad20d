import TerminalRelay.Transport

/-!
Escape sequences, read from their beginning. `scan` says of the bytes collected so far whether they
are still open, complete with or without a meaning for the line and the modes, the opening of a
title, or spoilt by their last byte.
-/

namespace TerminalRelay

-- The private modes that switch screens
inductive ScreenMode where
  | mode47
  | mode1047
  | mode1049
deriving DecidableEq, Repr

-- What a viewer has to do where the child switches screens
def ScreenMode.markers : ScreenMode → (on : Bool) → List Marker
  | mode1049, true => [.save, .alternate, .clear]
  | mode1049, false => [.primary, .restore]
  | mode1047, false => [.clear, .primary]
  | _, true => [.alternate]
  | _, false => [.primary]

-- What a sequence does to the line or to the modes
inductive Action where
  | eraseToEnd
  | cursorUp (count : Nat)
  | cursorForward (count : Nat)
  | deleteChars (count : Nat)
  | appCursor (on : Bool)
  | altScreen (mode : ScreenMode) (on : Bool)
deriving DecidableEq, Repr

inductive Scan where
  | pending
  | title
  | known (action : Action)
  | unknown
  | aborted
deriving DecidableEq, Repr

namespace Sequence

-- Counts are numbers of 64 bits; none written means one, and so does zero
def count? (digits : Bytes) : Option Nat :=
  if digits.all Byte.isDigit ∧ Byte.decimal digits < Nat.pow 2 64 then
    some (max 1 (Byte.decimal digits))
  else none

def privateMode? (digits : Bytes) (on : Bool) : Option Action :=
  if digits.isEmpty ∨ ¬ digits.all Byte.isDigit then none
  else match Byte.decimal digits with
    | 1 => some (.appCursor on)
    | 47 => some (.altScreen .mode47 on)
    | 1047 => some (.altScreen .mode1047 on)
    | 1049 => some (.altScreen .mode1049 on)
    | _ => none

-- The table of control sequences that mean something, by final byte and the bytes before it
def action? (body : Bytes) (final : UInt8) : Option Action :=
  if final = 'K'.toUInt8 then
    if body = [] ∨ body = ['0'.toUInt8] then some .eraseToEnd else none
  else if final = 'A'.toUInt8 then (count? body).map .cursorUp
  else if final = 'C'.toUInt8 then (count? body).map .cursorForward
  else if final = 'P'.toUInt8 then (count? body).map .deleteChars
  else if final = 'h'.toUInt8 ∨ final = 'l'.toUInt8 then
    match body with
    | mark :: digits =>
      if mark = '?'.toUInt8 then privateMode? digits (final = 'h'.toUInt8) else none
    | [] => none
  else none

-- What follows the introducer `ESC [`
def scanControl (rest : Bytes) : Scan :=
  match rest.getLast? with
  | none => .pending
  | some last =>
    if 0x20 ≤ last ∧ last ≤ 0x3f then .pending
    else if 0x40 ≤ last ∧ last ≤ 0x7e then
      match action? rest.dropLast last with
      | some action => .known action
      | none => .unknown
    else .aborted

def scan : Bytes → Scan
  | _ :: second :: rest =>
    if second = ']'.toUInt8 then .title
    else if second = '['.toUInt8 then scanControl rest
    else
      let last := (second :: rest).getLast (List.cons_ne_nil _ _)
      if 0x20 ≤ last ∧ last ≤ 0x2f then .pending
      else if 0x30 ≤ last ∧ last ≤ 0x7e then .unknown
      else .aborted
  | _ => .pending

end Sequence

end TerminalRelay
