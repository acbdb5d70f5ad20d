import TerminalRelay.Proofs.Mirror.Silent
import TerminalRelay.Proofs.Sequence.Table
import TerminalRelay.Proofs.Unhandled.Basic

namespace TerminalRelay

namespace Reader

open Sequence (kept Complete IsHandled Passes BreaksLong)

variable {capacity : Nat} {held : Bytes} {byte final : UInt8}

theorem recorded_cons (reader : Reader) (byte : UInt8) (rest : Bytes) :
    recorded capacity reader (byte :: rest) =
      (read capacity reader byte).2.recorded.toList ++
        recorded capacity (read capacity reader byte).1 rest := by
  rw [recorded, reports_cons, List.filterMap_cons]
  cases (read capacity reader byte).2.recorded <;> rfl

theorem Silent.recorded {reader next : Reader} {bytes : Bytes}
    (h : Silent capacity reader bytes next) (rest : Bytes) :
    recorded capacity reader (bytes ++ rest) = recorded capacity next rest := by
  induction h with
  | nil reader => rfl
  | cons hread h ih =>
      rw [List.cons_append, recorded_cons, hread, ih]
      rfl

theorem recorded_text (hescape : byte ≠ Byte.escape) (rest : Bytes) :
    recorded capacity ground (byte :: rest) = recorded capacity ground rest := by
  rw [recorded_cons]
  cases byte using Byte.ordinary_cases with
  | carriageReturn => rfl
  | backspace => rfl
  | bel => rfl
  | escape => exact absurd rfl hescape
  | ordinary byte hbyte =>
      rw [read_ordinary capacity hbyte]
      rfl

theorem recorded_collecting {raw : Bytes} (hopen : Sequence.Open (Byte.escape :: kept raw))
    (hfits : (Byte.escape :: kept raw).length ≤ capacity) (rest : Bytes) :
    recorded capacity ground (Byte.escape :: (raw ++ rest)) =
      recorded capacity ⟨.collecting, Byte.escape :: kept raw⟩ rest := by
  have hne : [Byte.escape] ≠ [] := List.cons_ne_nil _ _
  obtain ⟨hafter, hreports⟩ := read_collecting raw hne hopen hfits
  have hstart : read capacity ground Byte.escape = (opened, {}) := rfl
  have hnothing : (raw.map heldReport).filterMap Report.recorded = [] := by
    rw [List.filterMap_map, List.filterMap_eq_nil_iff]
    intro byte _
    simp only [Function.comp_apply, heldReport]
    split <;> rfl
  rw [recorded_cons, hstart, recorded_append, opened, hafter, recorded, hreports, hnothing]
  rfl

-- The last byte of a whole sequence: it goes on record as it is, or not at all.
structure Completes (whole : Bytes) (next : Reader × Report) : Prop where
  reader : next.1 = ground
  handled : IsHandled whole → next.2.recorded = none
  unhandled : ¬ IsHandled whole → next.2.recorded = some whole

theorem completes_unknown {whole : Bytes} (hlast : whole.getLast? = some final)
    (hother : ∀ body final, Sequence.IsUnderstood body final →
      whole ≠ Sequence.controlSequence body final) :
    Completes whole (readScanned whole final .unknown) := by
  dsimp only [readScanned]
  by_cases hcolour : final = 'm'.toUInt8
  · rw [if_pos hcolour]
    exact ⟨rfl, fun _ => rfl, fun hnot => absurd (.inr (hcolour ▸ hlast)) hnot⟩
  · rw [if_neg hcolour]
    refine ⟨rfl, ?_, fun _ => rfl⟩
    rintro (⟨body, final', hunderstood, heq⟩ | hend)
    · exact absurd heq (hother body final' hunderstood)
    · exact absurd (Option.some.inj (hlast.symm.trans hend)) hcolour

theorem completes_whole {whole : Bytes} (hcomplete : Complete whole)
    (hlast : whole.getLast? = some final) :
    Completes whole (readScanned whole final (Sequence.scan whole)) := by
  cases hcomplete with
  | control body last hbody hfinal =>
      rw [Sequence.scan_controlSequence hfinal, Sequence.controlMeaning]
      by_cases hunderstood : Sequence.IsUnderstood body last
      · obtain ⟨action, haction⟩ := Sequence.exists_action hunderstood
        rw [haction]
        exact ⟨rfl, fun _ => rfl, fun hnot => absurd (.inl ⟨body, last, hunderstood, rfl⟩) hnot⟩
      · rw [Sequence.action?_eq_none hunderstood]
        refine completes_unknown hlast fun body' final' hunderstood' heq => ?_
        obtain ⟨rfl, rfl⟩ := Sequence.controlSequence_inj.mp heq
        exact hunderstood hunderstood'
  | escape intermediates last hintermediates hfinal hother =>
      rw [Sequence.scan_otherEscape hintermediates hfinal hother]
      exact completes_unknown hlast fun body final' _ =>
        Sequence.otherEscape_ne_controlSequence hintermediates

theorem read_complete (hcomplete : Complete (held ++ [final])) (hne : held ≠ [])
    (hroom : held.length < capacity) :
    Completes (held ++ [final]) (read capacity ⟨.collecting, held⟩ final) := by
  have hfinal := (hcomplete.open hne).2
  rw [read_ordinary capacity (Byte.ordinary_of_ge hfinal)]
  dsimp only
  rw [readHeld_of_lt (ne_escape hfinal) hroom]
  exact completes_whole hcomplete List.getLast?_concat

-- A byte with which a sequence cannot go on is read as if there had been none.
theorem recorded_breaks (hopen : Sequence.Open held) (hroom : held.length < capacity)
    (hbreaks : Mirror.Breaks capacity held byte) (rest : Bytes) :
    recorded capacity ⟨.collecting, held⟩ (byte :: rest) =
      recorded capacity ground (byte :: rest) := by
  obtain ⟨hbackspace, hend⟩ := hbreaks
  obtain ⟨hnot, hcomplete, htitle⟩ := hend.resolve_left (Nat.ne_of_lt hroom)
  rw [recorded_cons, recorded_cons]
  cases byte using Byte.ordinary_cases with
  | carriageReturn => rfl
  | backspace => exact absurd rfl hbackspace
  | bel => rfl
  | escape => rfl
  | ordinary byte hbyte =>
      rw [read_ordinary capacity hbyte, read_ordinary capacity hbyte]
      dsimp only
      rw [readHeld_of_lt hbyte.escape hroom, Sequence.scan_aborted hopen hnot hcomplete htitle]
      rfl

-- Where the store is full, it makes no difference to the record whether that was noticed before.
theorem recorded_full (hfull : held.length = capacity) (bytes : Bytes) :
    recorded capacity ⟨.collecting, held⟩ bytes = recorded capacity ⟨.overlong, held⟩ bytes := by
  induction bytes with
  | nil => rfl
  | cons byte rest ih =>
      rw [recorded_cons, recorded_cons]
      cases byte using Byte.ordinary_cases with
      | carriageReturn => rfl
      | backspace => rw [read_backspace (by simp), read_backspace (by simp), ih]
      | bel => rfl
      | escape => rfl
      | ordinary byte hbyte =>
          rw [read_ordinary capacity hbyte, read_ordinary capacity hbyte]
          dsimp only
          rw [readHeld_of_full hbyte.escape hfull, Report.join]
          rfl

theorem recorded_passes {more : Bytes} (hmore : Passes more) (rest : Bytes) :
    recorded capacity ⟨.overlong, held⟩ (more ++ rest) =
      recorded capacity ⟨.overlong, held⟩ rest := by
  induction more with
  | nil => rfl
  | cons byte more ih =>
      have hrest := ih fun b hb => hmore b (List.mem_filter.mpr
        ⟨List.mem_cons_of_mem _ (List.mem_filter.mp hb).1, (List.mem_filter.mp hb).2⟩)
      rw [List.cons_append, recorded_cons]
      by_cases hbackspace : byte = Byte.backspace
      · subst hbackspace
        rw [read_backspace (by simp), hrest]
        rfl
      · have hparameter : Sequence.IsParameter byte :=
          hmore byte (List.mem_filter.mpr ⟨List.mem_cons_self, by simpa using hbackspace⟩)
        rw [read_ordinary capacity (Byte.ordinary_of_ge hparameter.1)]
        dsimp only
        rw [readOverlong, if_pos hparameter, hrest]
        rfl

theorem recorded_long (hfinal : Sequence.IsControlFinal final) (rest : Bytes) :
    recorded capacity ⟨.overlong, held⟩ (final :: rest) =
      if final = 'm'.toUInt8 then recorded capacity ground rest
      else held :: recorded capacity ground rest := by
  have hbyte : Byte.Ordinary final := Byte.ordinary_of_ge (UInt8.le_trans (by decide) hfinal.1)
  rw [recorded_cons, read_ordinary capacity hbyte]
  dsimp only
  rw [readOverlong, if_neg hfinal.not_parameter, if_pos hfinal]
  split <;> rfl

theorem recorded_breaksLong (hbreaks : BreaksLong byte) (rest : Bytes) :
    recorded capacity ⟨.overlong, held⟩ (byte :: rest) =
      recorded capacity ground (byte :: rest) := by
  obtain ⟨hbackspace, hparameter, hfinal⟩ := hbreaks
  rw [recorded_cons, recorded_cons]
  cases byte using Byte.ordinary_cases with
  | carriageReturn => rfl
  | backspace => exact absurd rfl hbackspace
  | bel => rfl
  | escape => rfl
  | ordinary byte hbyte =>
      rw [read_ordinary capacity hbyte, read_ordinary capacity hbyte]
      dsimp only
      rw [readOverlong, if_neg hparameter, if_neg hfinal, if_neg hbyte.escape]
      rfl

-- Nothing of a title goes on record.
theorem recorded_title {more left : Bytes} (htitle : Mirror.Title more left) :
    recorded capacity ⟨.title false, []⟩ more = recorded capacity ground left := by
  have hescaped {text inner : Bytes} (htext : Mirror.TitleText text)
      (hinner : Mirror.Backspaces inner) (rest : Bytes) :
      recorded capacity ⟨.title false, []⟩ (text ++ Byte.escape :: (inner ++ rest)) =
        recorded capacity ⟨.title true, []⟩ rest := by
    rw [(silent_text htext).recorded, ← List.cons_append]
    exact (silent_escape hinner).recorded rest
  cases htitle with
  | unended _ htext =>
      have h : recorded capacity ⟨.title false, []⟩ (more ++ []) = [] :=
        (silent_text htext).recorded []
      rw [List.append_nil] at h
      exact h
  | unendedEscape text inner htext hinner =>
      have h := hescaped htext hinner []
      rw [List.append_nil] at h
      exact h
  | bel text rest htext => exact (silent_text htext).recorded _
  | carriageReturn text rest htext => exact (silent_text htext).recorded _
  | escapeBackslash text inner rest htext hinner => exact hescaped htext hinner _
  | escapeBel text inner rest htext hinner => exact hescaped htext hinner _
  | escapeCarriageReturn text inner rest htext hinner => exact hescaped htext hinner _
  | escapeOther text inner byte rest htext hinner hbyte =>
      have hstart : read capacity ground Byte.escape = (opened, {}) := rfl
      rw [hescaped htext hinner, recorded_cons, read_titleOther hbyte, recorded_cons, hstart]
      exact (recorded_cons opened byte rest).symm

end Reader

end TerminalRelay
