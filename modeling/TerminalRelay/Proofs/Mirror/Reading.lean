import TerminalRelay.Proofs.Mirror.Basic
import TerminalRelay.Proofs.Sequence.Table
import TerminalRelay.Proofs.Terminal.Collecting

namespace TerminalRelay

namespace Reader

open Sequence (kept backspaces)
open Mirror (data)

variable {capacity : Nat}

-- What a reader still owes the viewers
def pending (reader : Reader) : Bytes :=
  match reader.phase with
  | .collecting => reader.held
  | .title true => [Byte.escape]
  | _ => []

-- All that viewers are shown of the bytes read, once what is pending has been shown as well
def mirrored (capacity : Nat) (reader : Reader) (bytes : Bytes) : List Transport.Item :=
  shown capacity reader bytes ++ data (after capacity reader bytes).pending

theorem mirrored_cons (reader : Reader) (byte : UInt8) (rest : Bytes) :
    mirrored capacity reader (byte :: rest) =
      (read capacity reader byte).2.shown ++
        mirrored capacity (read capacity reader byte).1 rest := by
  simp only [mirrored, shown, reports_cons, List.flatMap_cons, after_cons, List.append_assoc]

theorem mirrored_append (reader : Reader) (left right : Bytes) :
    mirrored capacity reader (left ++ right) =
      shown capacity reader left ++ mirrored capacity (after capacity reader left) right := by
  simp only [mirrored, shown_append, after_append, List.append_assoc]

theorem shown_heldReport (bytes : Bytes) :
    (bytes.map heldReport).flatMap Report.shown = data (backspaces bytes) := by
  induction bytes with
  | nil => rfl
  | cons byte rest ih =>
      rw [List.map_cons, List.flatMap_cons, ih]
      by_cases hbyte : byte = Byte.backspace
      · simp [heldReport, hbyte, backspaces, data]
      · simp [heldReport, hbyte, backspaces, data]

-- While a sequence goes on, only its backspaces are shown.
theorem mirrored_collecting {raw : Bytes} (hopen : Sequence.Open (Byte.escape :: kept raw))
    (hfits : (Byte.escape :: kept raw).length ≤ capacity) (rest : Bytes) :
    mirrored capacity ground (Byte.escape :: (raw ++ rest)) =
      data (backspaces raw) ++ mirrored capacity ⟨.collecting, Byte.escape :: kept raw⟩ rest := by
  have hne : [Byte.escape] ≠ [] := List.cons_ne_nil _ _
  obtain ⟨hafter, hreports⟩ := read_collecting raw hne hopen hfits
  have hstart : read capacity ground Byte.escape = (opened, {}) := rfl
  rw [mirrored_cons, hstart, mirrored_append, opened, hafter, shown, hreports, shown_heldReport]
  rfl

theorem readOverlong_other {byte : UInt8} (hescape : byte ≠ Byte.escape) (held : Bytes) :
    (readOverlong held byte).2.shown = [.data byte] ∧
    ((readOverlong held byte).1 = ⟨.overlong, held⟩ ∨ (readOverlong held byte).1 = ground) := by
  rw [readOverlong, if_neg hescape]
  split
  · exact ⟨rfl, .inl rfl⟩
  · split <;> exact ⟨rfl, .inr rfl⟩

theorem mirrored_text {byte : UInt8} (hescape : byte ≠ Byte.escape) (rest : Bytes) :
    mirrored capacity ground (byte :: rest) = .data byte :: mirrored capacity ground rest := by
  rw [mirrored_cons]
  cases byte using Byte.ordinary_cases with
  | carriageReturn => rfl
  | backspace => rfl
  | bel => rfl
  | escape => exact absurd rfl hescape
  | ordinary byte hbyte =>
      rw [read_ordinary capacity hbyte]
      rfl

-- Behind a sequence that outgrew its store, viewers are shown what they would be shown outside.
theorem mirrored_overlong (held bytes : Bytes) :
    mirrored capacity ⟨.overlong, held⟩ bytes = mirrored capacity ground bytes := by
  induction bytes with
  | nil => rfl
  | cons byte rest ih =>
      cases byte using Byte.ordinary_cases with
      | carriageReturn => rfl
      | backspace =>
          rw [mirrored_text (by decide), mirrored_cons, read_backspace (by simp), ih]
          rfl
      | bel => rfl
      | escape => rfl
      | ordinary byte hbyte =>
          obtain ⟨hshown, hnext⟩ := readOverlong_other hbyte.escape held
          rw [mirrored_text hbyte.escape, mirrored_cons, read_ordinary capacity hbyte]
          dsimp only
          rw [hshown]
          rcases hnext with hnext | hnext
          · rw [hnext, ih]
            rfl
          · rw [hnext]
            rfl

-- A byte with which a sequence cannot go on shows what was held back of it, and is then read as
-- if there had been none.
theorem mirrored_breaks {held : Bytes} {byte : UInt8} (hopen : Sequence.Open held)
    (hfits : held.length ≤ capacity) (hbreaks : Mirror.Breaks capacity held byte) (rest : Bytes) :
    mirrored capacity ⟨.collecting, held⟩ (byte :: rest) =
      data held ++ mirrored capacity ground (byte :: rest) := by
  obtain ⟨hbackspace, hend⟩ := hbreaks
  cases byte using Byte.ordinary_cases with
  | carriageReturn =>
      rw [mirrored_text (by decide), mirrored_cons]
      simp [read, withheld, data]
  | backspace => exact absurd rfl hbackspace
  | bel =>
      have hreturn : Byte.bel ≠ Byte.carriageReturn := by decide
      rw [mirrored_text (by decide), mirrored_cons]
      simp [read, withheld, data, Phase.inTitle, hreturn, hbackspace]
  | escape =>
      rw [mirrored_cons, mirrored_cons]
      rfl
  | ordinary byte hbyte =>
      rw [mirrored_text hbyte.escape, mirrored_cons, read_ordinary capacity hbyte]
      dsimp only
      by_cases hfull : held.length = capacity
      · obtain ⟨hshown, hnext⟩ := readOverlong_other hbyte.escape held
        have hnext' : mirrored capacity (readOverlong held byte).1 rest =
            mirrored capacity ground rest := by
          rcases hnext with hnext | hnext
          · rw [hnext, mirrored_overlong]
          · rw [hnext]
        rw [readHeld_of_full hbyte.escape hfull, hnext', Report.join, hshown, List.append_assoc]
        rfl
      · obtain ⟨hnot, hcomplete, htitle⟩ := hend.resolve_left hfull
        have hroom : held.length < capacity := by omega
        rw [readHeld_of_lt hbyte.escape hroom, Sequence.scan_aborted hopen hnot hcomplete htitle]
        simp [readScanned, data]

theorem markers_screenMode {digits : Bytes} (hmode : Mirror.IsScreenMode digits) (on : Bool) :
    (Sequence.screenMode digits).markers on = Mirror.screenMarkers (Byte.decimal digits) on := by
  obtain ⟨⟨-, hmem⟩, hone⟩ := hmode
  simp only [List.mem_cons, List.not_mem_nil, or_false] at hmem
  unfold Sequence.screenMode
  rcases hmem with hmem | hmem | hmem | hmem
  · exact absurd hmem hone
  all_goals
    rw [hmem]
    cases on <;> rfl

-- A whole sequence, with all of it known
theorem readScanned_shownAs {sequence : Bytes} {items : List Transport.Item}
    (hshown : Mirror.ShownAs sequence items) (byte : UInt8) :
    (readScanned sequence byte (Sequence.scan sequence)).1 = ground ∧
    (readScanned sequence byte (Sequence.scan sequence)).2.shown = items := by
  cases hshown with
  | switch digits on hmode =>
      have hfinal : Sequence.IsControlFinal (if on then 'h'.toUInt8 else 'l'.toUInt8) := by
        cases on <;> decide
      have haction : Sequence.action? ('?'.toUInt8 :: digits)
          (if on then 'h'.toUInt8 else 'l'.toUInt8) =
            some (.altScreen (Sequence.screenMode digits) on) := by
        have hknown := Sequence.privateMode?_of_isPrivateMode hmode.1 on
        rw [Sequence.modeAction, if_neg hmode.2] at hknown
        cases on with
        | true => exact hknown
        | false => exact hknown
      rw [Mirror.screenSwitch, Sequence.scan_controlSequence hfinal,
        Sequence.controlMeaning_of_some haction]
      refine ⟨rfl, ?_⟩
      simp only [readScanned, shownAction, markers_screenMode hmode]
  | plain _ hcomplete hother =>
      cases hcomplete with
      | control body final hbody hfinal =>
          rw [Sequence.scan_controlSequence hfinal, Sequence.controlMeaning]
          cases haction : Sequence.action? body final with
          | none =>
              simp only [readScanned]
              split <;> exact ⟨rfl, rfl⟩
          | some action =>
              refine ⟨rfl, ?_⟩
              cases action with
              | altScreen mode on =>
                  obtain ⟨digits, rfl, hmode, hone, rfl⟩ := Sequence.altScreen_of_action? haction
                  exact absurd rfl (hother digits on ⟨hmode, hone⟩)
              | _ => rfl
      | escape intermediates final hintermediates hfinal hother' =>
          rw [Sequence.scan_otherEscape hintermediates hfinal hother']
          simp only [readScanned]
          split <;> exact ⟨rfl, rfl⟩

end Reader

end TerminalRelay
