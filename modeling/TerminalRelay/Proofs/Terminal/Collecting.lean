import TerminalRelay.Proofs.Terminal.Edits

namespace TerminalRelay

namespace Sequence

-- A sequence is open from its first byte on.
theorem Open.of_append {held more : Bytes} (hopen : Open (held ++ more)) (hne : held ≠ []) :
    Open held := by
  obtain ⟨first, tail, rfl⟩ := List.exists_cons_of_ne_nil hne
  generalize hwhole : first :: tail ++ more = whole at hopen
  cases hopen with
  | escape =>
      rw [List.cons_append, List.cons.injEq, List.append_eq_nil_iff] at hwhole
      obtain ⟨rfl, rfl, -⟩ := hwhole
      exact .escape
  | control body hbody =>
      rw [List.cons_append, List.cons.injEq] at hwhole
      obtain ⟨rfl, hwhole⟩ := hwhole
      cases tail with
      | nil => exact .escape
      | cons second tail =>
          rw [List.cons_append, List.cons.injEq] at hwhole
          obtain ⟨rfl, rfl⟩ := hwhole
          exact .control tail fun b hb => hbody b (List.mem_append_left _ hb)
  | intermediates bytes hbytes hall =>
      rw [List.cons_append, List.cons.injEq] at hwhole
      obtain ⟨rfl, rfl⟩ := hwhole
      by_cases htail : tail = []
      · subst htail
        exact .escape
      · exact .intermediates tail htail fun b hb => hall b (List.mem_append_left _ hb)

-- No control byte stands in an open sequence behind its first byte.
theorem Open.last {held : Bytes} {byte : UInt8} (hopen : Open (held ++ [byte])) (hne : held ≠ []) :
    0x20 ≤ byte := by
  obtain ⟨first, tail, rfl⟩ := List.exists_cons_of_ne_nil hne
  generalize hwhole : first :: tail ++ [byte] = whole at hopen
  have hlast : byte ∈ whole.tail := by
    rw [← hwhole]
    simp
  cases hopen with
  | escape => simp at hlast
  | control body hbody =>
      rcases List.mem_cons.mp hlast with rfl | hmem
      · decide
      · exact (hbody byte hmem).1
  | intermediates bytes hbytes hall => exact (hall byte hlast).1

end Sequence

namespace Byte

-- None of the control bytes that a reader looks at, whatever it has read
structure Ordinary (byte : UInt8) : Prop where
  carriageReturn : byte ≠ Byte.carriageReturn
  backspace : byte ≠ Byte.backspace
  bel : byte ≠ Byte.bel
  escape : byte ≠ Byte.escape

theorem ordinary_of_ge {byte : UInt8} (h : 0x20 ≤ byte) : Ordinary byte := by
  refine ⟨?_, ?_, ?_, ?_⟩ <;>
    · rintro rfl
      exact absurd h (by decide)

theorem ordinary_of_isLineByte {byte : UInt8} (h : Terminal.isLineByte byte = true) :
    Ordinary byte := by
  refine ⟨?_, ?_, ?_, ?_⟩ <;>
    · rintro rfl
      exact absurd h (by decide)

theorem ordinary_cases {p : UInt8 → Prop} (carriageReturn : p Byte.carriageReturn)
    (backspace : p Byte.backspace) (bel : p Byte.bel) (escape : p Byte.escape)
    (ordinary : ∀ byte, Ordinary byte → p byte) (byte : UInt8) : p byte := by
  by_cases hreturn : byte = Byte.carriageReturn
  · rwa [hreturn]
  by_cases hbackspace : byte = Byte.backspace
  · rwa [hbackspace]
  by_cases hbel : byte = Byte.bel
  · rwa [hbel]
  by_cases hescape : byte = Byte.escape
  · rwa [hescape]
  exact ordinary byte ⟨hreturn, hbackspace, hbel, hescape⟩

end Byte

theorem ne_escape {byte : UInt8} (h : 0x20 ≤ byte) : byte ≠ Byte.escape :=
  (Byte.ordinary_of_ge h).escape

theorem ne_backspace {byte : UInt8} (h : 0x20 ≤ byte) : byte ≠ Byte.backspace :=
  (Byte.ordinary_of_ge h).backspace

namespace Reader

open Sequence (kept)

variable {capacity : Nat} {held : Bytes} {byte : UInt8}

-- Past these control bytes, what a byte does depends on the phase alone.
theorem read_ordinary (capacity : Nat) (hbyte : Byte.Ordinary byte) (reader : Reader) :
    read capacity reader byte =
      match reader.phase with
      | .normal => readText byte
      | .collecting => readHeld capacity reader.held byte
      | .title false => (reader, {})
      | .title true =>
        if byte = Byte.backslash then (ground, {}) else readHeld capacity [Byte.escape] byte
      | .overlong => readOverlong reader.held byte := by
  obtain ⟨hreturn, hbackspace, hbel, hescape⟩ := hbyte
  obtain ⟨phase, held⟩ := reader
  rw [read, if_neg hreturn, if_neg hbackspace, if_neg hbel]
  cases phase with
  | normal => exact if_neg hescape
  | collecting => rfl
  | title sawEscape =>
      cases sawEscape with
      | false => exact if_neg hescape
      | true => rfl
  | overlong => rfl

theorem readHeld_of_lt (hescape : byte ≠ Byte.escape) (hroom : held.length < capacity) :
    readHeld capacity held byte =
      readScanned (held ++ [byte]) byte (Sequence.scan (held ++ [byte])) := by
  rw [readHeld, if_neg hescape, if_pos hroom]

theorem readHeld_of_full (hescape : byte ≠ Byte.escape) (hfull : held.length = capacity) :
    readHeld capacity held byte =
      ((readOverlong held byte).1,
        .join { shown := held.map .data, notice := some (.sequenceTooLong held.length) }
          (readOverlong held byte).2) := by
  rw [readHeld, if_neg hescape, if_neg (by omega)]

theorem read_backspace (hphase : ∀ sawEscape, Reader.phase reader ≠ .title sawEscape) :
    read capacity reader Byte.backspace =
      (reader, { shown := [.data Byte.backspace], edit := .stepBack }) := by
  have hreturn : Byte.backspace ≠ Byte.carriageReturn := by decide
  obtain ⟨phase, held⟩ := reader
  cases phase with
  | title sawEscape => exact absurd rfl (hphase sawEscape)
  | normal => simp [read, hreturn, Phase.inTitle]
  | collecting => simp [read, hreturn, Phase.inTitle]
  | overlong => simp [read, hreturn, Phase.inTitle]

-- A byte that leaves its sequence open is held back, and nothing else happens.
theorem read_open (hopen : Sequence.Open (held ++ [byte])) (hne : held ≠ [])
    (hroom : held.length < capacity) :
    read capacity ⟨.collecting, held⟩ byte = (⟨.collecting, held ++ [byte]⟩, {}) := by
  have hbyte := hopen.last hne
  rw [read_ordinary capacity (Byte.ordinary_of_ge hbyte)]
  dsimp only
  rw [readHeld_of_lt (ne_escape hbyte) hroom, Sequence.scan_open hopen]
  rfl

-- What is told of a byte that a sequence holds back: a backspace acts at once
def heldReport (byte : UInt8) : Report :=
  if byte = Byte.backspace then { shown := [.data byte], edit := .stepBack } else {}

theorem read_collecting (more : Bytes) (hne : held ≠ [])
    (hopen : Sequence.Open (held ++ kept more)) (hfits : (held ++ kept more).length ≤ capacity) :
    after capacity ⟨.collecting, held⟩ more = ⟨.collecting, held ++ kept more⟩ ∧
    reports capacity ⟨.collecting, held⟩ more = more.map heldReport := by
  induction more generalizing held with
  | nil => simp [kept]
  | cons byte rest ih =>
      by_cases hbyte : byte = Byte.backspace
      · subst hbyte
        have hkept : kept (Byte.backspace :: rest) = kept rest := by simp [kept]
        rw [hkept] at hopen hfits ⊢
        rw [after_cons, reports_cons, read_backspace (by simp)]
        obtain ⟨hafter, hreports⟩ := ih hne hopen hfits
        exact ⟨hafter, by rw [hreports]; rfl⟩
      · have hkept : kept (byte :: rest) = byte :: kept rest := by simp [kept, hbyte]
        rw [hkept, List.append_cons] at hopen hfits
        rw [hkept, List.append_cons]
        have hlength : held.length < capacity := by
          simp only [List.length_append, List.length_cons] at hfits
          omega
        have hnext : Sequence.Open (held ++ [byte]) := hopen.of_append (by simp)
        rw [after_cons, reports_cons, read_open hnext hne hlength]
        obtain ⟨hafter, hreports⟩ := ih (by simp) hopen hfits
        refine ⟨hafter, ?_⟩
        rw [hreports, List.map_cons, heldReport, if_neg hbyte]

end Reader

end TerminalRelay
