import TerminalRelay.Byte
import Mathlib.Algebra.Group.Nat.Defs
import Mathlib.Data.List.Induction

namespace TerminalRelay

-- A number does not get smaller by the digits that follow.
theorem le_ofDigitChars (value : Nat) (digits : List Char) :
    value ≤ Nat.ofDigitChars 10 digits value := by
  rw [Nat.ofDigitChars_eq_ofDigitChars_zero]
  exact Nat.le_add_right_of_le (Nat.le_mul_of_pos_left value (Nat.pow_pos (by decide)))

namespace Byte

-- A fact about one byte, for the cases where it is checked byte by byte
theorem forall_byte {p : UInt8 → Prop} (h : ∀ i : Fin 256, p (UInt8.ofFin i)) (byte : UInt8) :
    p byte := by
  have := h byte.toFin
  rwa [UInt8.ofFin_toFin] at this

theorem digitValue_lt (digit : UInt8) : isDigit digit = true → digitValue digit < 10 := by
  revert digit
  apply forall_byte
  decide +kernel

theorem decimal_lt {digits : Bytes} (h : digits.all isDigit = true) :
    decimal digits < 10 ^ digits.length := by
  induction digits using List.reverseRecOn with
  | nil => decide
  | append_singleton digits digit ih =>
      rw [List.all_append, Bool.and_eq_true] at h
      have hdigits := ih h.1
      have hdigit := digitValue_lt digit (by simpa using h.2)
      rw [decimal, List.foldl_append, List.length_append, List.length_singleton, Nat.pow_succ]
      change 10 * decimal digits + digitValue digit < _
      omega

theorem hexValue?_hexDigits (byte : UInt8) :
    hexValue? (hexDigit (byte >>> 4)) = some (byte >>> 4) ∧
    hexValue? (hexDigit (byte &&& 0x0f)) = some (byte &&& 0x0f) ∧
    (byte >>> 4) <<< 4 ||| (byte &&& 0x0f) = byte := by
  revert byte
  apply forall_byte
  decide +kernel

theorem hexDigits_lt (byte : UInt8) : ∀ digit ∈ hexDigits byte, digit < 0x80 := by
  have hall : (hexDigits byte).all (· < 0x80) = true := by
    revert byte
    apply forall_byte
    decide +kernel
  simpa using hall

end Byte

namespace Bytes

-- The list of an array is put together from its end, behind what was read before.
theorem toList_loop (array : ByteArray) (i : Nat) (read : Bytes) :
    ByteArray.toList.loop array i read = read.reverse ++ array.data.toList.drop i := by
  fun_induction ByteArray.toList.loop array i read with
  | case1 i read hlt ih =>
      have hlength : i < array.data.toList.length := by simpa using hlt
      have hget : array.get! i = array.data.toList[i] := by simp [ByteArray.get!, hlt]
      rw [ih, List.drop_eq_getElem_cons hlength, hget, List.reverse_cons, List.append_assoc]
      rfl
  | case2 i read hnot =>
      rw [List.drop_of_length_le (by simpa using Nat.le_of_not_lt hnot), List.append_nil]

theorem toList_toByteArray (bytes : Bytes) : bytes.toByteArray.toList = bytes := by
  rw [ByteArray.toList, toList_loop, List.toList_data_toByteArray]
  rfl

-- Text of one character for each byte is encoded in just these bytes if all of them are ASCII.
theorem ofText_toText {bytes : Bytes} (h : ∀ byte ∈ bytes, byte < 0x80) :
    ofText (toText bytes) = bytes := by
  have hchar (byte : UInt8) : byte < 0x80 →
      String.utf8EncodeChar (Char.ofNat byte.toNat) = [byte] := by
    revert byte
    apply Byte.forall_byte
    decide +kernel
  have hbytes : (bytes.map fun byte => Char.ofNat byte.toNat).flatMap String.utf8EncodeChar =
      bytes := by
    induction bytes with
    | nil => rfl
    | cons byte rest ih =>
        rw [List.map_cons, List.flatMap_cons, hchar byte (h byte (by simp)),
          ih fun later hlater => h later (.tail _ hlater)]
        rfl
  have hencoded : (toText bytes).toUTF8 = bytes.toByteArray := congrArg List.toByteArray hbytes
  rw [ofText, hencoded, toList_toByteArray]

theorem ofHexDigits?_hexDigits (bytes : Bytes) :
    ofHexDigits? (bytes.flatMap Byte.hexDigits) = some bytes := by
  induction bytes with
  | nil => rfl
  | cons byte rest ih =>
      obtain ⟨hhigh, hlow, hbyte⟩ := Byte.hexValue?_hexDigits byte
      rw [List.flatMap_cons, Byte.hexDigits, List.cons_append, List.cons_append, List.nil_append,
        ofHexDigits?, hhigh, hlow, ih]
      simp [hbyte]

theorem ofHex?_hex (bytes : Bytes) : ofHex? (hex bytes) = some bytes := by
  rw [ofHex?, hex, ofText_toText, ofHexDigits?_hexDigits]
  intro digit hdigit
  obtain ⟨byte, -, hmem⟩ := List.mem_flatMap.mp hdigit
  exact Byte.hexDigits_lt byte digit hmem

end Bytes

end TerminalRelay
