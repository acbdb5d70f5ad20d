import TerminalRelay.Encode
import TerminalRelay.Proofs.Transport.RoundTrip
import TerminalRelay.Proofs.Writer.Gentle

namespace TerminalRelay

theorem Byte.hexDigit_of_hexValue? {byte value : UInt8} (h : hexValue? byte = some value) :
    value < 16 ∧ hexDigit value = byte := by
  have hall (byte : UInt8) :
      (hexValue? byte).all (fun value => value < 16 && hexDigit value == byte) = true := by
    revert byte
    apply forall_byte
    decide +kernel
  have hvalue := hall byte
  rw [h] at hvalue
  simpa using hvalue

namespace Transport

-- Two halves of a byte are told apart again once they are put together.
theorem shift_nibbles {high low : UInt8} (hhigh : high < 16) (hlow : low < 16) :
    (high <<< 4 ||| low) >>> 4 = high ∧ (high <<< 4 ||| low) &&& 0x0f = low := by
  have hall : ∀ i j : Fin 16,
      ((UInt8.ofNat i.val <<< 4 ||| UInt8.ofNat j.val) >>> 4 = UInt8.ofNat i.val) ∧
        ((UInt8.ofNat i.val <<< 4 ||| UInt8.ofNat j.val) &&& 0x0f = UInt8.ofNat j.val) := by
    decide +kernel
  have h := hall ⟨high.toNat, hhigh⟩ ⟨low.toNat, hlow⟩
  simp only [UInt8.ofNat_toNat] at h
  exact h

theorem ofLetters?_eq_some {first second : UInt8} {marker : Marker}
    (h : Marker.ofLetters? first second = some marker) : marker.letters = (first, second) := by
  have hfound := List.find?_some h
  exact of_decide_eq_true hfound

-- A backslash and two bytes are the rendering of an item, or of none.
theorem render_of_ofPair? {first second : UInt8} {item : Item}
    (h : Item.ofPair? first second = some item) :
    item.render = [Byte.backslash, first, second] := by
  unfold Item.ofPair? at h
  split at h
  · rename_i m hletters
    cases h
    have hpair := ofLetters?_eq_some hletters
    simp only [Item.render, hpair]
  · obtain ⟨high, hhigh, h⟩ := Option.bind_eq_some_iff.mp h
    obtain ⟨low, hlow, h⟩ := Option.bind_eq_some_iff.mp h
    obtain ⟨hhigh16, hfirst⟩ := Byte.hexDigit_of_hexValue? hhigh
    obtain ⟨hlow16, hsecond⟩ := Byte.hexDigit_of_hexValue? hlow
    obtain ⟨hshift, hmask⟩ := shift_nibbles hhigh16 hlow16
    dsimp only at h
    split at h
    · exact absurd h (by simp)
    · rename_i hpasses
      cases h
      simp only [Item.render, encodeByte, if_neg hpasses, Byte.hexDigits, hshift, hmask, hfirst,
        hsecond]

-- What is read is just what would be written, so that nothing has two forms.
theorem render_of_decode {bytes : Bytes} {items : List Item} (h : decode bytes = some items) :
    render items = bytes := by
  fun_induction decode bytes generalizing items with
  | case1 =>
      cases h
      rfl
  | case2 byte rest hpasses ih =>
      obtain ⟨more, hmore, h⟩ := Option.bind_eq_some_iff.mp h
      cases h
      have hbyte : Item.render (.data byte) = [byte] := if_pos hpasses
      have hcons : render (.data byte :: more) = Item.render (.data byte) ++ render more := rfl
      rw [hcons, hbyte, ih hmore]
      rfl
  | case3 rest hpasses first second ih =>
      obtain ⟨item, hitem, h⟩ := Option.bind_eq_some_iff.mp h
      obtain ⟨more, hmore, h⟩ := Option.bind_eq_some_iff.mp h
      cases h
      have hcons : render (item :: more) = item.render ++ render more := rfl
      rw [hcons, render_of_ofPair? hitem, ih hmore]
      rfl
  | case4 => exact absurd h (by simp)
  | case5 => exact absurd h (by simp)

theorem printable_encodeByte (byte : UInt8) :
    (encodeByte byte).all Byte.isPrintable = true := by
  revert byte
  apply Byte.forall_byte
  decide +kernel

theorem printable_item (item : Item) : item.render.all Byte.isPrintable = true := by
  cases item with
  | data byte => exact printable_encodeByte byte
  | marker m => cases m <;> decide

theorem printable_render (items : List Item) : (render items).all Byte.isPrintable = true := by
  rw [render, List.all_flatMap, List.all_eq_true]
  intro item _
  exact printable_item item

-- Data alone is rendered byte by byte.
theorem render_data (bytes : Bytes) : render (bytes.map .data) = encode bytes := by
  rw [render, encode, List.flatMap_map]
  rfl

theorem decode_encode (bytes : Bytes) : decode (encode bytes) = some (bytes.map .data) := by
  rw [← render_data, decode_render]

theorem encode_injective : Function.Injective encode := by
  intro left right h
  have hsame := congrArg decode h
  rw [decode_encode, decode_encode, Option.some_inj] at hsame
  exact List.map_injective_iff.mpr (fun _ _ => Item.data.inj) hsame

theorem command_encode (bytes : Bytes) :
    Encode.command (.content bytes) .accepting = .success (encode bytes ++ [Byte.newline]) := by
  have hgentle : ({ device := .accepting } : Writer).Gentle := ⟨rfl, by simp⟩
  obtain ⟨herror, -, hcontents⟩ := hgentle.accepts .viewers (encode bytes ++ [Byte.newline])
  simp only [Encode.command, Source.bytes, herror, hcontents]
  rfl

-- Data and markers are read back from what they are rendered as, whatever their order, and nothing
-- else is read at all. A byte string alone is read back too, also from the one line that prints it,
-- which has a newline at its end and nowhere else.
theorem decode_eq_some_iff :
    (∀ (bytes : Bytes) (items : List Item), decode bytes = some items ↔ bytes = render items) ∧
    Function.Injective encode ∧
    (∀ bytes : Bytes, decode (encode bytes) = some (bytes.map .data)) ∧
    (∀ bytes : Bytes, ∃ line, Encode.command (.content bytes) .accepting =
        .success (line ++ [Byte.newline]) ∧ Byte.newline ∉ line ∧
      decode line = some (bytes.map .data)) ∧
    ∀ items : List Item, (render items).all Byte.isPrintable = true ∧
      Byte.newline ∉ render items := by
  refine ⟨?_, encode_injective, decode_encode, ?_, ?_⟩
  · intro bytes items
    constructor
    · intro h
      exact (render_of_decode h).symm
    · rintro rfl
      exact decode_render items
  · intro bytes
    refine ⟨encode bytes, command_encode bytes, ?_, decode_encode bytes⟩
    rw [← render_data]
    exact newline_notMem_render _
  · intro items
    exact ⟨printable_render items, newline_notMem_render items⟩

-- Hexadecimal digits around the marker that begins like one
example : decode (render [.data 0x5c, .marker .clear, .data 0x6c, .data 0xc1]) =
    some [.data 0x5c, .marker .clear, .data 0x6c, .data 0xc1] := by decide

end Transport

end TerminalRelay
