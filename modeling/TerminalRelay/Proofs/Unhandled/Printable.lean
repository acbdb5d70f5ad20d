import TerminalRelay.Proofs.Byte
import TerminalRelay.Unhandled

namespace TerminalRelay.Unhandled

-- The bytes of a sequence, and the text they are told as: ESC is told as `\e`, a byte from the
-- blank to the tilde as its character, and any other as `\x` with two hexadecimal digits.
inductive ToldAs : Bytes → List Char → Prop
  | nil : ToldAs [] []
  | escape {raw : Bytes} {text : List Char} (h : ToldAs raw text) :
      ToldAs (0x1b :: raw) ('\\' :: 'e' :: text)
  | printable {c : Char} {raw : Bytes} {text : List Char} (hlow : ' ' ≤ c) (hhigh : c ≤ '~')
      (h : ToldAs raw text) : ToldAs (c.toUInt8 :: raw) (c :: text)
  | other {byte : UInt8} {raw : Bytes} {text : List Char} (hescape : byte ≠ 0x1b)
      (hrange : byte < 0x20 ∨ 0x7e < byte) (h : ToldAs raw text) :
      ToldAs (byte :: raw) ('\\' :: 'x' :: (byte.toNat / 16).digitChar ::
        (byte.toNat % 16).digitChar :: text)

def charsOf (byte : UInt8) : List Char :=
  (printableByte byte).map fun b => Char.ofNat b.toNat

theorem toList_printable (raw : Bytes) : (mk raw).printable.toList = raw.flatMap charsOf := by
  rw [printable, Bytes.toText, String.toList_ofList, List.map_flatMap]
  rfl

-- The three kinds of bytes

theorem charsOf_escape : charsOf 0x1b = ['\\', 'e'] := by decide

theorem charsOf_printable {c : Char} (hlow : ' ' ≤ c) (hhigh : c ≤ '~') :
    charsOf c.toUInt8 = [c] := by
  have hall : ∀ code < 0x7f, 0x20 ≤ code →
      charsOf (Char.ofNat code).toUInt8 = [Char.ofNat code] := by
    decide +kernel
  have hcode := hall c.toNat (Nat.lt_succ_of_le hhigh) hlow
  rwa [Char.ofNat_toNat] at hcode

theorem exists_char {byte : UInt8} (hlow : 0x20 ≤ byte) (hhigh : byte ≤ 0x7e) :
    ∃ c : Char, ' ' ≤ c ∧ c ≤ '~' ∧ c.toUInt8 = byte := by
  have hall : ∀ byte : UInt8, 0x20 ≤ byte → byte ≤ 0x7e →
      ' ' ≤ Char.ofNat byte.toNat ∧ Char.ofNat byte.toNat ≤ '~' ∧
        (Char.ofNat byte.toNat).toUInt8 = byte := by
    apply Byte.forall_byte
    decide +kernel
  exact ⟨_, hall byte hlow hhigh⟩

theorem charsOf_other {byte : UInt8} : byte ≠ 0x1b → byte < 0x20 ∨ 0x7e < byte →
    charsOf byte =
      ['\\', 'x', (byte.toNat / 16).digitChar, (byte.toNat % 16).digitChar] := by
  revert byte
  apply Byte.forall_byte
  decide +kernel

theorem toldAs_flatMap (raw : Bytes) : ToldAs raw (raw.flatMap charsOf) := by
  induction raw with
  | nil => exact .nil
  | cons byte raw ih =>
      rw [List.flatMap_cons]
      by_cases hescape : byte = 0x1b
      · rw [hescape, charsOf_escape]
        exact .escape ih
      by_cases hrange : byte < 0x20 ∨ 0x7e < byte
      · rw [charsOf_other hescape hrange]
        exact .other hescape hrange ih
      · rw [not_or, UInt8.not_lt, UInt8.not_lt] at hrange
        obtain ⟨c, hlow, hhigh, rfl⟩ := exists_char hrange.1 hrange.2
        rw [charsOf_printable hlow hhigh]
        exact .printable hlow hhigh ih

theorem ToldAs.eq_flatMap {raw : Bytes} {text : List Char} (h : ToldAs raw text) :
    text = raw.flatMap charsOf := by
  induction h with
  | nil => rfl
  | escape h ih =>
      rw [List.flatMap_cons, charsOf_escape, ← ih]
      rfl
  | printable hlow hhigh h ih =>
      rw [List.flatMap_cons, charsOf_printable hlow hhigh, ← ih]
      rfl
  | other hescape hrange h ih =>
      rw [List.flatMap_cons, charsOf_other hescape hrange, ← ih]
      rfl

-- A sequence is told in one way, which is how it is kept for the reader.
theorem toldAs_iff (entry : Unhandled) (text : List Char) :
    ToldAs entry.raw text ↔ entry.printable.toList = text := by
  rw [toList_printable]
  constructor
  · exact fun h => h.eq_flatMap.symm
  · rintro rfl
    exact toldAs_flatMap entry.raw

end TerminalRelay.Unhandled
