import TerminalRelay.Proofs.Byte
import TerminalRelay.Transport
import Mathlib.Data.List.Basic

namespace TerminalRelay.Transport

theorem ofPair?_hexDigits (byte : UInt8) (hpasses : passes byte = false) :
    Item.ofPair? (Byte.hexDigit (byte >>> 4)) (Byte.hexDigit (byte &&& 0x0f)) =
      some (.data byte) := by
  revert byte
  apply Byte.forall_byte
  decide +kernel

theorem ofPair?_letters (marker : Marker) :
    Item.ofPair? marker.letters.1 marker.letters.2 = some (.marker marker) := by
  cases marker <;> decide

theorem backslash_not_passes : passes Byte.backslash = false := by decide

-- An item is read back whatever comes after it, since each begins in its own way.
theorem decode_render_append (item : Item) (rest : Bytes) :
    decode (item.render ++ rest) = (decode rest).map (item :: ·) := by
  cases item with
  | data byte =>
      by_cases hpasses : passes byte = true
      · have hrender : Item.render (.data byte) = [byte] := if_pos hpasses
        rw [hrender, List.singleton_append, decode.eq_def]
        dsimp only
        rw [if_pos hpasses]
        cases decode rest <;> rfl
      · have hpasses : passes byte = false := by simpa using hpasses
        have hrender : Item.render (.data byte) =
            [Byte.backslash, Byte.hexDigit (byte >>> 4), Byte.hexDigit (byte &&& 0x0f)] := by
          simp [Item.render, encodeByte, hpasses, Byte.hexDigits]
        simp only [hrender, List.cons_append, List.nil_append, decode, backslash_not_passes,
          ofPair?_hexDigits byte hpasses, ite_true, Bool.false_eq_true, ite_false]
        cases decode rest <;> rfl
  | marker m =>
      simp only [Item.render, List.cons_append, List.nil_append, decode, backslash_not_passes,
        ofPair?_letters m, ite_true, Bool.false_eq_true, ite_false]
      cases decode rest <;> rfl

theorem decode_render (items : List Item) : decode (render items) = some items := by
  induction items with
  | nil => rfl
  | cons item rest ih =>
      have hcons : render (item :: rest) = item.render ++ render rest := rfl
      rw [hcons, decode_render_append, ih]
      rfl

theorem newline_notMem_encodeByte (byte : UInt8) : Byte.newline ∉ encodeByte byte := by
  revert byte
  apply Byte.forall_byte
  decide +kernel

-- A newline is never part of the stream itself, which is why it can end it.
theorem newline_notMem_render (items : List Item) : Byte.newline ∉ render items := by
  intro hmem
  obtain ⟨item, -, hitem⟩ := List.mem_flatMap.mp hmem
  cases item with
  | data byte => exact newline_notMem_encodeByte byte hitem
  | marker m => exact absurd hitem (by cases m <;> decide)

theorem render_append (left right : List Item) :
    render (left ++ right) = render left ++ render right :=
  List.flatMap_append

end TerminalRelay.Transport
