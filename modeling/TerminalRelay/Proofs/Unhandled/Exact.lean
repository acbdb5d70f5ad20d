import TerminalRelay.Proofs.Mirror.Stream
import TerminalRelay.Proofs.Unhandled.Reading

namespace TerminalRelay

open Sequence Mirror

namespace LeavesUnhandled

variable {limit : Nat} {bytes : Bytes} {raws : List Bytes}

-- What the relation allows is what the reader puts on record.
theorem eq_recorded (hlimit : 2 ≤ limit) (h : LeavesUnhandled limit bytes raws) :
    raws = Reader.ground.recorded limit bytes := by
  induction h with
  | nil => rfl
  | byte hbyte h ih => rw [Reader.recorded_text hbyte, ih]
  | @handled raw final rest raws hfits hcomplete hhandled h ih =>
      rw [← List.cons_append] at hcomplete hhandled
      have hopen := (hcomplete.open (List.cons_ne_nil _ _)).1
      obtain ⟨hreader, hnone, -⟩ := Reader.read_complete hcomplete (List.cons_ne_nil _ _) hfits
      rw [Reader.recorded_collecting hopen (Nat.le_of_lt hfits), Reader.recorded_cons, hreader,
        hnone hhandled, ← ih]
      rfl
  | @unhandled raw final rest raws hfits hcomplete hunhandled h ih =>
      rw [← List.cons_append] at hcomplete hunhandled
      have hopen := (hcomplete.open (List.cons_ne_nil _ _)).1
      obtain ⟨hreader, -, hsome⟩ := Reader.read_complete hcomplete (List.cons_ne_nil _ _) hfits
      rw [Reader.recorded_collecting hopen (Nat.le_of_lt hfits), Reader.recorded_cons, hreader,
        hsome hunhandled, ← ih]
      rfl
  | long hopen hfull hmore hfinal h ih =>
      rw [Reader.recorded_collecting hopen (Nat.le_of_eq hfull), Reader.recorded_full hfull,
        Reader.recorded_passes hmore, Reader.recorded_long hfinal, ← ih]
  | broken hopen hfits hbreaks h ih =>
      rw [Reader.recorded_collecting hopen (Nat.le_of_lt hfits),
        Reader.recorded_breaks hopen hfits hbreaks, ← ih]
  | brokenLong hopen hfull hmore hbreaks h ih =>
      rw [Reader.recorded_collecting hopen (Nat.le_of_eq hfull), Reader.recorded_full hfull,
        Reader.recorded_passes hmore, Reader.recorded_breaksLong hbreaks, ← ih]
  | @unended raw hopen hfits =>
      have h := Reader.recorded_collecting hopen hfits []
      rw [List.append_nil] at h
      exact h.symm
  | @unendedLong raw more hopen hfull hmore =>
      have h : Reader.recorded limit ⟨.overlong, Byte.escape :: kept raw⟩ (more ++ []) = [] :=
        Reader.recorded_passes hmore []
      rw [List.append_nil] at h
      rw [Reader.recorded_collecting hopen (Nat.le_of_eq hfull), Reader.recorded_full hfull, h]
  | @title inner more left raws hinner htitle h ih =>
      have hkept := kept_of_backspaces hinner
      obtain ⟨hopen, hfits⟩ := begun_of_backspaces hlimit hinner
      have hread : Reader.read limit ⟨.collecting, [Byte.escape]⟩ ']'.toUInt8 =
          (⟨.title false, []⟩, {}) := Reader.read_titleIntroducer hlimit
      rw [Reader.recorded_collecting hopen hfits, hkept, Reader.recorded_cons, hread,
        Reader.recorded_title htitle, ← ih]
      rfl

-- What a sequence that has outgrown its store lets pass, up to the first byte that it does not
theorem exists_passes (bytes : Bytes) : ∃ more left, bytes = more ++ left ∧ Passes more ∧
    ∀ byte rest, left = byte :: rest → byte ≠ Byte.backspace ∧ ¬ IsParameter byte := by
  induction bytes with
  | nil => exact ⟨[], [], rfl, by simp [Passes, kept], by simp⟩
  | cons byte bytes ih =>
      by_cases hpasses : byte = Byte.backspace ∨ IsParameter byte
      · obtain ⟨more, left, rfl, hmore, hleft⟩ := ih
        refine ⟨byte :: more, left, rfl, ?_, hleft⟩
        intro b hb
        obtain ⟨hmem, hother⟩ := List.mem_filter.mp hb
        rcases List.mem_cons.mp hmem with rfl | hmem
        · exact hpasses.resolve_left (by simpa using hother)
        · exact hmore b (List.mem_filter.mpr ⟨hmem, hother⟩)
      · refine ⟨[], byte :: bytes, rfl, by simp [Passes, kept], ?_⟩
        rintro b rest heq
        obtain ⟨rfl, rfl⟩ := List.cons.inj heq
        exact not_or.mp hpasses

-- A sequence whose store is full when another byte comes
theorem exists_long {raw rest : Bytes} (hopen : Open (Byte.escape :: kept raw))
    (hfull : (Byte.escape :: kept raw).length = limit)
    (later : ∀ bytes : Bytes, bytes.length ≤ rest.length →
      ∃ raws, LeavesUnhandled limit bytes raws) :
    ∃ raws, LeavesUnhandled limit (Byte.escape :: (raw ++ rest)) raws := by
  obtain ⟨more, left, rfl, hmore, hleft⟩ := exists_passes rest
  cases left with
  | nil =>
      rw [List.append_nil]
      exact ⟨_, .unendedLong hopen hfull hmore⟩
  | cons byte left =>
      obtain ⟨hbackspace, hparameter⟩ := hleft byte left rfl
      rw [List.length_append, List.length_cons] at later
      by_cases hfinal : IsControlFinal byte
      · obtain ⟨raws, h⟩ := later left (by omega)
        exact ⟨_, .long hopen hfull hmore hfinal h⟩
      · obtain ⟨raws, h⟩ := later (byte :: left) (by rw [List.length_cons]; omega)
        exact ⟨_, .brokenLong hopen hfull hmore ⟨hbackspace, hparameter, hfinal⟩ h⟩

theorem exists_raws (hlimit : 2 ≤ limit) (bytes : Bytes) :
    ∃ raws, LeavesUnhandled limit bytes raws := by
  induction bytes using stretch_induction hlimit with
  | nil => exact ⟨[], .nil⟩
  | byte byte rest hescape ih =>
      obtain ⟨raws, h⟩ := ih
      exact ⟨_, .byte hescape h⟩
  | whole raw final rest hfits hcomplete ih =>
      obtain ⟨raws, h⟩ := ih
      by_cases hhandled : IsHandled (Byte.escape :: (kept raw ++ [final]))
      · exact ⟨_, .handled hfits hcomplete hhandled h⟩
      · exact ⟨_, .unhandled hfits hcomplete hhandled h⟩
  | full raw byte rest hopen hfull _ later => exact exists_long hopen hfull later
  | broken raw byte rest hopen hfits hbreaks ih =>
      obtain ⟨raws, h⟩ := ih
      exact ⟨_, .broken hopen hfits hbreaks h⟩
  | unended raw hopen hfits => exact ⟨_, .unended hopen hfits⟩
  | title inner more left hinner htitle ih =>
      obtain ⟨raws, h⟩ := ih
      exact ⟨_, .title hinner htitle h⟩

end LeavesUnhandled

-- The relation says for every stream what goes on record of it, and nothing else.
theorem leavesUnhandled_iff {limit : Nat} (hlimit : 2 ≤ limit) (bytes : Bytes)
    (raws : List Bytes) :
    LeavesUnhandled limit bytes raws ↔ raws = Reader.ground.recorded limit bytes := by
  refine ⟨LeavesUnhandled.eq_recorded hlimit, ?_⟩
  intro heq
  obtain ⟨raws', h⟩ := LeavesUnhandled.exists_raws hlimit bytes
  rw [heq, ← h.eq_recorded hlimit]
  exact h

end TerminalRelay
