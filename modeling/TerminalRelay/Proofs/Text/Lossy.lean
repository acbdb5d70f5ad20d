import TerminalRelay.Proofs.Byte
import TerminalRelay.Text.Lossy

namespace TerminalRelay.Lossy

variable {bits missing value : Nat} {low high : UInt8}

-- The first byte of a character, by the bits it carries

theorem start?_one : ∀ value < 0x80,
    start? (UInt8.ofNat value) = some (.char (Char.ofNat value)) := by
  decide +kernel

theorem start?_two : ∀ value < 0x20, 2 ≤ value →
    start? (UInt8.ofNat (value + 0xc0)) = some (.more ⟨value, 1, 0x80, 0xbf⟩) := by
  decide +kernel

theorem start?_three : ∀ value < 0x10, start? (UInt8.ofNat (value + 0xe0)) = some (.more
    ⟨value, 2, if value = 0 then 0xa0 else 0x80, if value = 0xd then 0x9f else 0xbf⟩) := by
  decide +kernel

theorem start?_four : ∀ value < 5, start? (UInt8.ofNat (value + 0xf0)) = some (.more
    ⟨value, 3, if value = 0 then 0x90 else 0x80, if value = 4 then 0x8f else 0xbf⟩) := by
  decide +kernel

theorem decodeFrom_start {byte : UInt8} {begun : Partial} (h : start? byte = some (.more begun))
    (rest : Bytes) : decodeFrom none (byte :: rest) = decodeFrom (some begun) rest := by
  rw [decodeFrom, h]

-- A later byte adds its six bits, if it lies within the bounds.
theorem next_of_within (bits missing : Nat) (hlow : low.toNat ≤ value + 0x80)
    (hhigh : value + 0x80 ≤ high.toNat) :
    (low ≤ UInt8.ofNat (value + 0x80) ∧ UInt8.ofNat (value + 0x80) ≤ high) ∧
    Partial.next ⟨bits, missing, low, high⟩ (UInt8.ofNat (value + 0x80)) =
      if missing = 1 then .char (Char.ofNat (64 * bits + value))
      else .more ⟨64 * bits + value, missing - 1, 0x80, 0xbf⟩ := by
  have hbyte : (UInt8.ofNat (value + 0x80)).toNat = value + 0x80 :=
    UInt8.toNat_ofNat_of_lt' (Nat.lt_of_le_of_lt hhigh high.toNat_lt)
  rw [UInt8.le_iff_toNat_le, UInt8.le_iff_toNat_le, hbyte, Partial.next, hbyte, Nat.add_sub_cancel]
  exact ⟨⟨hlow, hhigh⟩, rfl⟩

theorem decodeFrom_more (hlow : low.toNat ≤ value + 0x80) (hhigh : value + 0x80 ≤ high.toNat)
    (rest : Bytes) :
    decodeFrom (some ⟨bits, missing + 2, low, high⟩) (UInt8.ofNat (value + 0x80) :: rest) =
      decodeFrom (some ⟨64 * bits + value, missing + 1, 0x80, 0xbf⟩) rest := by
  obtain ⟨hwithin, hnext⟩ := next_of_within bits (missing + 2) hlow hhigh
  rw [decodeFrom, if_pos hwithin, hnext, if_neg (by omega)]
  rfl

theorem decodeFrom_last (hlow : low.toNat ≤ value + 0x80) (hhigh : value + 0x80 ≤ high.toNat)
    (rest : Bytes) :
    decodeFrom (some ⟨bits, 1, low, high⟩) (UInt8.ofNat (value + 0x80) :: rest) =
      Char.ofNat (64 * bits + value) :: decodeFrom none rest := by
  obtain ⟨hwithin, hnext⟩ := next_of_within bits 1 hlow hhigh
  rw [decodeFrom, if_pos hwithin, hnext, if_pos rfl]

-- The bounds of a second byte keep out forms that are too long, surrogates and what lies beyond the
-- last code point, which no character has.
theorem decodeFrom_encoded (c : Char) (rest : Bytes) :
    decodeFrom none (String.utf8EncodeChar c ++ rest) = c :: decodeFrom none rest := by
  have hvalid : c.val.toNat < 0xd800 ∨ 0xdfff < c.val.toNat ∧ c.val.toNat < 0x110000 := c.valid
  have hchar : Char.ofNat c.val.toNat = c := Char.ofNat_toNat c
  unfold String.utf8EncodeChar
  dsimp only
  generalize c.val.toNat = code at *
  split
  case isTrue hone =>
    rw [List.singleton_append, decodeFrom, start?_one code (by omega), hchar]
  case isFalse hone =>
    split
    case isTrue htwo =>
      have hcode : 64 * (code / 64 % 0x20) + code % 0x40 = code := by omega
      rw [List.cons_append, List.singleton_append,
        decodeFrom_start (start?_two (code / 64 % 0x20) (by omega) (by omega)),
        decodeFrom_last (by simp) (by simp; omega), hcode, hchar]
    case isFalse htwo =>
      split
      case isTrue hthree =>
        have hcode : 64 * (64 * (code / 4096 % 0x10) + code / 64 % 0x40) + code % 0x40 = code := by
          omega
        rw [List.cons_append, List.cons_append, List.singleton_append,
          decodeFrom_start (start?_three (code / 4096 % 0x10) (by omega)),
          decodeFrom_more ?_ ?_, decodeFrom_last (by simp) (by simp; omega), hcode, hchar]
        · split
          · simp
            omega
          · simp
        · split <;> (simp; omega)
      case isFalse hthree =>
        have hcode : 64 * (64 * (64 * (code / 262144 % 0x08) + code / 4096 % 0x40) +
            code / 64 % 0x40) + code % 0x40 = code := by
          omega
        rw [List.cons_append, List.cons_append, List.cons_append, List.singleton_append,
          decodeFrom_start (start?_four (code / 262144 % 0x08) (by omega)),
          decodeFrom_more ?_ ?_, decodeFrom_more (by simp) (by simp; omega),
          decodeFrom_last (by simp) (by simp; omega), hcode, hchar]
        · split
          · simp
            omega
          · simp
        · split <;> (simp; omega)

theorem decodeFrom_flatMap (text : List Char) :
    decodeFrom none (text.flatMap String.utf8EncodeChar) = text := by
  induction text with
  | nil => rfl
  | cons c rest ih => rw [List.flatMap_cons, decodeFrom_encoded, ih]

-- Bytes that are UTF-8 are decoded to the text that they encode.
theorem ofText_decode {bytes : Bytes} (h : bytes.toByteArray.IsValidUTF8) :
    Bytes.ofText (decode bytes) = bytes := by
  obtain ⟨text, htext⟩ := h
  have hbytes : bytes = text.flatMap String.utf8EncodeChar := by
    rw [← Bytes.toList_toByteArray bytes, htext, List.utf8Encode, Bytes.toList_toByteArray]
  have hencoded : (String.ofList text).toUTF8 = bytes.toByteArray := htext.symm
  rw [decode, hbytes, decodeFrom_flatMap, Bytes.ofText, hencoded, Bytes.toList_toByteArray, hbytes]

end TerminalRelay.Lossy
