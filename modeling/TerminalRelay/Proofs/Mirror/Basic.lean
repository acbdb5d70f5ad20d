import TerminalRelay.Proofs.Sequence.Grammar

namespace TerminalRelay

namespace Mirror

open Sequence
open Transport (Item)

def data (bytes : Bytes) : List Item :=
  bytes.map .data

def IsScreenMode (digits : Bytes) : Prop :=
  IsPrivateMode digits ∧ Byte.decimal digits ≠ 1

def screenSwitch (digits : Bytes) (on : Bool) : Bytes :=
  controlSequence ('?'.toUInt8 :: digits) (if on then 'h'.toUInt8 else 'l'.toUInt8)

def screenMarkers : (mode : Nat) → (on : Bool) → List Marker
  | 1049, true => [.save, .alternate, .clear]
  | 1049, false => [.primary, .restore]
  | 1047, false => [.clear, .primary]
  | _, true => [.alternate]
  | _, false => [.primary]

-- A whole sequence is shown as it came, but for a switch of screens.
inductive ShownAs : Bytes → List Item → Prop
  | switch (digits : Bytes) (on : Bool) (hmode : IsScreenMode digits) :
      ShownAs (screenSwitch digits on) ((screenMarkers (Byte.decimal digits) on).map .marker)
  | plain (sequence : Bytes) (hcomplete : Complete sequence)
      (hother : ∀ digits on, IsScreenMode digits → sequence ≠ screenSwitch digits on) :
      ShownAs sequence (data sequence)

-- A sequence that is not over goes no further with this byte: its store of `limit` bytes is full,
-- or no sequence and no title begins so.
def Breaks (limit : Nat) (held : Bytes) (byte : UInt8) : Prop :=
  byte ≠ Byte.backspace ∧
    (held.length = limit ∨
      (¬ Open (held ++ [byte]) ∧ ¬ Complete (held ++ [byte]) ∧
        held ++ [byte] ≠ [Byte.escape, ']'.toUInt8]))

def Backspaces (bytes : Bytes) : Prop :=
  ∀ byte ∈ bytes, byte = Byte.backspace

-- Text of a title: neither an end of it nor a sign of one
def TitleText (bytes : Bytes) : Prop :=
  ∀ byte ∈ bytes, byte ∉ [Byte.carriageReturn, Byte.bel, Byte.escape]

-- From inside a title, the bytes that come and those that are left behind it. An ESC that does not
-- end the title opens a sequence, unless a carriage return comes first.
inductive Title : Bytes → Bytes → Prop
  | unended (text : Bytes) (htext : TitleText text) : Title text []
  | unendedEscape (text inner : Bytes) (htext : TitleText text) (hinner : Backspaces inner) :
      Title (text ++ Byte.escape :: inner) [Byte.escape]
  | bel (text rest : Bytes) (htext : TitleText text) : Title (text ++ Byte.bel :: rest) rest
  | carriageReturn (text rest : Bytes) (htext : TitleText text) :
      Title (text ++ Byte.carriageReturn :: rest) (Byte.carriageReturn :: rest)
  | escapeBackslash (text inner rest : Bytes) (htext : TitleText text) (hinner : Backspaces inner) :
      Title (text ++ Byte.escape :: (inner ++ Byte.backslash :: rest)) rest
  | escapeBel (text inner rest : Bytes) (htext : TitleText text) (hinner : Backspaces inner) :
      Title (text ++ Byte.escape :: (inner ++ Byte.bel :: rest)) rest
  | escapeCarriageReturn (text inner rest : Bytes) (htext : TitleText text)
      (hinner : Backspaces inner) :
      Title (text ++ Byte.escape :: (inner ++ Byte.carriageReturn :: rest))
        (Byte.carriageReturn :: rest)
  | escapeOther (text inner : Bytes) (byte : UInt8) (rest : Bytes) (htext : TitleText text)
      (hinner : Backspaces inner)
      (hbyte : byte ∉ [Byte.carriageReturn, Byte.backspace, Byte.bel, Byte.backslash]) :
      Title (text ++ Byte.escape :: (inner ++ byte :: rest)) (Byte.escape :: byte :: rest)

end Mirror

open Sequence Mirror

-- What viewers are to be shown of a stream of output, where sequences of up to `limit` bytes are
-- kept: the stream itself, except that titles are left out, that switches of screens become
-- markers, and that backspaces inside a sequence come before it. A sequence that is not over yet
-- counts as shown.
inductive Mirror (limit : Nat) : Bytes → List Transport.Item → Prop
  | nil : Mirror limit [] []
  | byte {byte : UInt8} {rest : Bytes} {items : List Transport.Item} (hbyte : byte ≠ Byte.escape)
      (h : Mirror limit rest items) : Mirror limit (byte :: rest) (.data byte :: items)
  | sequence {raw : Bytes} {final : UInt8} {rest : Bytes} {shown items : List Transport.Item}
      (hfits : (Byte.escape :: kept raw).length < limit)
      (hshown : ShownAs (Byte.escape :: (kept raw ++ [final])) shown)
      (h : Mirror limit rest items) :
      Mirror limit (Byte.escape :: (raw ++ final :: rest)) (data (backspaces raw) ++ shown ++ items)
  | broken {raw : Bytes} {byte : UInt8} {rest : Bytes} {items : List Transport.Item}
      (hopen : Open (Byte.escape :: kept raw)) (hfits : (Byte.escape :: kept raw).length ≤ limit)
      (hbreaks : Breaks limit (Byte.escape :: kept raw) byte)
      (h : Mirror limit (byte :: rest) items) :
      Mirror limit (Byte.escape :: (raw ++ byte :: rest))
        (data (backspaces raw) ++ data (Byte.escape :: kept raw) ++ items)
  | unended {raw : Bytes} (hopen : Open (Byte.escape :: kept raw))
      (hfits : (Byte.escape :: kept raw).length ≤ limit) :
      Mirror limit (Byte.escape :: raw)
        (data (backspaces raw) ++ data (Byte.escape :: kept raw))
  | title {inner more left : Bytes} {items : List Transport.Item} (hinner : Backspaces inner)
      (htitle : Title more left) (h : Mirror limit left items) :
      Mirror limit (Byte.escape :: (inner ++ ']'.toUInt8 :: more)) (data inner ++ items)

end TerminalRelay
