import TerminalRelay.Proofs.Mirror.Stream

namespace TerminalRelay

namespace Transport

def Item.data? : Item → Option UInt8
  | data byte => some byte
  | marker _ => none

def Item.marker? : Item → Option Marker
  | data _ => none
  | marker m => some m

def dataOf (items : List Item) : Bytes :=
  items.filterMap Item.data?

def markersOf (items : List Item) : List Marker :=
  items.filterMap Item.marker?

@[simp] theorem dataOf_append (left right : List Item) :
    dataOf (left ++ right) = dataOf left ++ dataOf right :=
  List.filterMap_append

@[simp] theorem markersOf_append (left right : List Item) :
    markersOf (left ++ right) = markersOf left ++ markersOf right :=
  List.filterMap_append

@[simp] theorem dataOf_data (bytes : Bytes) : dataOf (bytes.map .data) = bytes := by
  induction bytes with
  | nil => rfl
  | cons byte rest ih => exact congrArg (byte :: ·) ih

@[simp] theorem markersOf_data (bytes : Bytes) : markersOf (bytes.map .data) = [] := by
  induction bytes with
  | nil => rfl
  | cons byte rest ih => exact ih

@[simp] theorem dataOf_marker (markers : List Marker) : dataOf (markers.map .marker) = [] := by
  induction markers with
  | nil => rfl
  | cons marker rest ih => exact ih

@[simp] theorem markersOf_marker (markers : List Marker) :
    markersOf (markers.map .marker) = markers := by
  induction markers with
  | nil => rfl
  | cons marker rest ih => exact congrArg (marker :: ·) ih

end Transport

namespace Mirror

open Sequence

-- A part of a stream of output: bytes that are shown as they came, or a switch of screens
inductive Piece where
  | text (bytes : Bytes)
  | switch (digits : Bytes) (on : Bool)
deriving DecidableEq, Repr

namespace Piece

-- What is left of a piece as data; of a switch that is nothing.
def bytes : Piece → Bytes
  | text bytes => bytes
  | switch _ _ => []

def markers : Piece → List Marker
  | text _ => []
  | switch digits on => screenMarkers (Byte.decimal digits) on

def items (piece : Piece) : List Transport.Item :=
  data piece.bytes ++ piece.markers.map .marker

end Piece

end Mirror

open Sequence Mirror

-- The parts of a stream, where sequences of up to `limit` bytes are kept. A switch of screens is
-- one of them only as a whole sequence; backspaces inside a sequence stand before it, titles are no
-- part at all, and a sequence that breaks off is text.
inductive Pieces (limit : Nat) : Bytes → List Piece → Prop
  | nil : Pieces limit [] []
  | byte {byte : UInt8} {rest : Bytes} {pieces : List Piece} (hbyte : byte ≠ Byte.escape)
      (h : Pieces limit rest pieces) : Pieces limit (byte :: rest) (.text [byte] :: pieces)
  | switch {raw : Bytes} {final : UInt8} {rest digits : Bytes} {on : Bool} {pieces : List Piece}
      (hfits : (Byte.escape :: kept raw).length < limit) (hmode : IsScreenMode digits)
      (hswitch : Byte.escape :: (kept raw ++ [final]) = screenSwitch digits on)
      (h : Pieces limit rest pieces) :
      Pieces limit (Byte.escape :: (raw ++ final :: rest))
        (.text (backspaces raw) :: .switch digits on :: pieces)
  | sequence {raw : Bytes} {final : UInt8} {rest : Bytes} {pieces : List Piece}
      (hfits : (Byte.escape :: kept raw).length < limit)
      (hcomplete : Complete (Byte.escape :: (kept raw ++ [final])))
      (hother : ∀ digits on, IsScreenMode digits →
        Byte.escape :: (kept raw ++ [final]) ≠ screenSwitch digits on)
      (h : Pieces limit rest pieces) :
      Pieces limit (Byte.escape :: (raw ++ final :: rest))
        (.text (backspaces raw) :: .text (Byte.escape :: (kept raw ++ [final])) :: pieces)
  | broken {raw : Bytes} {byte : UInt8} {rest : Bytes} {pieces : List Piece}
      (hopen : Open (Byte.escape :: kept raw)) (hfits : (Byte.escape :: kept raw).length ≤ limit)
      (hbreaks : Breaks limit (Byte.escape :: kept raw) byte)
      (h : Pieces limit (byte :: rest) pieces) :
      Pieces limit (Byte.escape :: (raw ++ byte :: rest))
        (.text (backspaces raw) :: .text (Byte.escape :: kept raw) :: pieces)
  | unended {raw : Bytes} (hopen : Open (Byte.escape :: kept raw))
      (hfits : (Byte.escape :: kept raw).length ≤ limit) :
      Pieces limit (Byte.escape :: raw) [.text (backspaces raw), .text (Byte.escape :: kept raw)]
  | title {inner more left : Bytes} {pieces : List Piece} (hinner : Backspaces inner)
      (htitle : Title more left) (h : Pieces limit left pieces) :
      Pieces limit (Byte.escape :: (inner ++ ']'.toUInt8 :: more)) (.text inner :: pieces)

namespace Pieces

variable {limit : Nat}

theorem items_text (bytes : Bytes) (pieces : List Piece) :
    (Piece.text bytes :: pieces).flatMap Piece.items =
      data bytes ++ pieces.flatMap Piece.items := by
  rw [List.flatMap_cons, Piece.items, Piece.bytes, Piece.markers, List.map_nil, List.append_nil]

theorem items_switch (digits : Bytes) (on : Bool) (pieces : List Piece) :
    (Piece.switch digits on :: pieces).flatMap Piece.items =
      (screenMarkers (Byte.decimal digits) on).map .marker ++ pieces.flatMap Piece.items := rfl

-- Viewers are shown the parts of the stream, one after the other.
theorem mirror {bytes : Bytes} {pieces : List Piece} (h : Pieces limit bytes pieces) :
    Mirror limit bytes (pieces.flatMap Piece.items) := by
  induction h with
  | nil => exact .nil
  | byte hbyte h ih =>
      rw [items_text]
      exact .byte hbyte ih
  | @switch raw final rest digits on pieces hfits hmode hswitch h ih =>
      rw [items_text, items_switch, ← List.append_assoc]
      have hshown := ShownAs.switch digits on hmode
      rw [← hswitch] at hshown
      exact .sequence hfits hshown ih
  | sequence hfits hcomplete hother h ih =>
      rw [items_text, items_text, ← List.append_assoc]
      exact .sequence hfits (.plain _ hcomplete hother) ih
  | broken hopen hfits hbreaks h ih =>
      rw [items_text, items_text, ← List.append_assoc]
      exact .broken hopen hfits hbreaks ih
  | unended hopen hfits =>
      rw [items_text, items_text, List.flatMap_nil, List.append_nil]
      exact .unended hopen hfits
  | title hinner htitle h ih =>
      rw [items_text]
      exact .title hinner htitle ih

theorem exists_pieces (hlimit : 2 ≤ limit) (bytes : Bytes) :
    ∃ pieces, Pieces limit bytes pieces := by
  induction bytes using stretch_induction hlimit with
  | nil => exact ⟨_, .nil⟩
  | byte byte rest hescape ih =>
      obtain ⟨pieces, h⟩ := ih
      exact ⟨_, .byte hescape h⟩
  | whole raw final rest hfits hcomplete ih =>
      obtain ⟨pieces, h⟩ := ih
      by_cases hswitch : ∃ digits on, IsScreenMode digits ∧
          Byte.escape :: (kept raw ++ [final]) = screenSwitch digits on
      · obtain ⟨digits, on, hmode, hwhole⟩ := hswitch
        exact ⟨_, .switch hfits hmode hwhole h⟩
      · refine ⟨_, .sequence hfits hcomplete ?_ h⟩
        exact fun digits on hmode heq => hswitch ⟨digits, on, hmode, heq⟩
  | full raw byte rest hopen hfull hbackspace later =>
      obtain ⟨pieces, h⟩ := later (byte :: rest) (Nat.le_refl _)
      exact ⟨_, .broken hopen (Nat.le_of_eq hfull) ⟨hbackspace, .inl hfull⟩ h⟩
  | broken raw byte rest hopen hfits hbreaks ih =>
      obtain ⟨pieces, h⟩ := ih
      exact ⟨_, .broken hopen (Nat.le_of_lt hfits) hbreaks h⟩
  | unended raw hopen hfits => exact ⟨_, .unended hopen hfits⟩
  | title inner more left hinner htitle ih =>
      obtain ⟨pieces, h⟩ := ih
      exact ⟨_, .title hinner htitle h⟩

theorem bytes_flatMap (pieces : List Piece) :
    Transport.dataOf (pieces.flatMap Piece.items) = pieces.flatMap Piece.bytes := by
  induction pieces with
  | nil => rfl
  | cons piece rest ih =>
      simp only [List.flatMap_cons, Piece.items, data, Transport.dataOf_append,
        Transport.dataOf_data, Transport.dataOf_marker, List.append_nil, ih]

theorem markers_flatMap (pieces : List Piece) :
    Transport.markersOf (pieces.flatMap Piece.items) = pieces.flatMap Piece.markers := by
  induction pieces with
  | nil => rfl
  | cons piece rest ih =>
      simp only [List.flatMap_cons, Piece.items, data, Transport.markersOf_append,
        Transport.markersOf_data, Transport.markersOf_marker, List.nil_append, ih]

end Pieces

end TerminalRelay
