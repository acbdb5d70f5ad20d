import TerminalRelay.Proofs.Mirror.Basic

namespace TerminalRelay

namespace Sequence

-- The whole sequences that never go on record: those with an effect, and those that end in `m`
def IsHandled (sequence : Bytes) : Prop :=
  (∃ body final, IsUnderstood body final ∧ sequence = controlSequence body final) ∨
    sequence.getLast? = some 'm'.toUInt8

-- What a sequence that has outgrown its store lets pass before its final byte
def Passes (bytes : Bytes) : Prop :=
  ∀ byte ∈ kept bytes, IsParameter byte

-- A byte with which such a sequence breaks off
def BreaksLong (byte : UInt8) : Prop :=
  byte ≠ Byte.backspace ∧ ¬ IsParameter byte ∧ ¬ IsControlFinal byte

end Sequence

open Sequence Mirror

-- The sequences of a stream of output that are to go on record, where sequences of up to `limit`
-- bytes are kept. Backspaces inside a sequence are no part of it; one that is too long is known by
-- its first bytes alone. What breaks off, whether for another sequence or for text, is passed over,
-- and so is what is not over yet.
inductive LeavesUnhandled (limit : Nat) : Bytes → List Bytes → Prop
  | nil : LeavesUnhandled limit [] []
  | byte {byte : UInt8} {rest : Bytes} {raws : List Bytes} (hbyte : byte ≠ Byte.escape)
      (h : LeavesUnhandled limit rest raws) : LeavesUnhandled limit (byte :: rest) raws
  | handled {raw : Bytes} {final : UInt8} {rest : Bytes} {raws : List Bytes}
      (hfits : (Byte.escape :: kept raw).length < limit)
      (hcomplete : Complete (Byte.escape :: (kept raw ++ [final])))
      (hhandled : IsHandled (Byte.escape :: (kept raw ++ [final])))
      (h : LeavesUnhandled limit rest raws) :
      LeavesUnhandled limit (Byte.escape :: (raw ++ final :: rest)) raws
  | unhandled {raw : Bytes} {final : UInt8} {rest : Bytes} {raws : List Bytes}
      (hfits : (Byte.escape :: kept raw).length < limit)
      (hcomplete : Complete (Byte.escape :: (kept raw ++ [final])))
      (hunhandled : ¬ IsHandled (Byte.escape :: (kept raw ++ [final])))
      (h : LeavesUnhandled limit rest raws) :
      LeavesUnhandled limit (Byte.escape :: (raw ++ final :: rest))
        ((Byte.escape :: (kept raw ++ [final])) :: raws)
  | long {raw more : Bytes} {final : UInt8} {rest : Bytes} {raws : List Bytes}
      (hopen : Open (Byte.escape :: kept raw)) (hfull : (Byte.escape :: kept raw).length = limit)
      (hmore : Passes more) (hfinal : IsControlFinal final)
      (h : LeavesUnhandled limit rest raws) :
      LeavesUnhandled limit (Byte.escape :: (raw ++ (more ++ final :: rest)))
        (if final = 'm'.toUInt8 then raws else (Byte.escape :: kept raw) :: raws)
  | broken {raw : Bytes} {byte : UInt8} {rest : Bytes} {raws : List Bytes}
      (hopen : Open (Byte.escape :: kept raw)) (hfits : (Byte.escape :: kept raw).length < limit)
      (hbreaks : Breaks limit (Byte.escape :: kept raw) byte)
      (h : LeavesUnhandled limit (byte :: rest) raws) :
      LeavesUnhandled limit (Byte.escape :: (raw ++ byte :: rest)) raws
  | brokenLong {raw more : Bytes} {byte : UInt8} {rest : Bytes} {raws : List Bytes}
      (hopen : Open (Byte.escape :: kept raw)) (hfull : (Byte.escape :: kept raw).length = limit)
      (hmore : Passes more) (hbreaks : BreaksLong byte)
      (h : LeavesUnhandled limit (byte :: rest) raws) :
      LeavesUnhandled limit (Byte.escape :: (raw ++ (more ++ byte :: rest))) raws
  | unended {raw : Bytes} (hopen : Open (Byte.escape :: kept raw))
      (hfits : (Byte.escape :: kept raw).length ≤ limit) :
      LeavesUnhandled limit (Byte.escape :: raw) []
  | unendedLong {raw more : Bytes} (hopen : Open (Byte.escape :: kept raw))
      (hfull : (Byte.escape :: kept raw).length = limit) (hmore : Passes more) :
      LeavesUnhandled limit (Byte.escape :: (raw ++ more)) []
  | title {inner more left : Bytes} {raws : List Bytes} (hinner : Backspaces inner)
      (htitle : Title more left) (h : LeavesUnhandled limit left raws) :
      LeavesUnhandled limit (Byte.escape :: (inner ++ ']'.toUInt8 :: more)) raws

end TerminalRelay
