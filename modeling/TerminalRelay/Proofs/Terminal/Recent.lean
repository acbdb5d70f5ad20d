import TerminalRelay.Proofs.Terminal.Collecting

namespace TerminalRelay.Reader

open Sequence (kept IsIntermediate)

variable {capacity : Nat} {bytes held raw : Bytes} {reader : Reader}

-- These bytes end in an ESC and others that, backspaces apart, are held behind it.
def EndsIn (bytes held : Bytes) : Prop :=
  ∃ before raw, bytes = before ++ Byte.escape :: raw ∧ held = Byte.escape :: kept raw

theorem EndsIn.backspace (h : EndsIn bytes held) : EndsIn (bytes ++ [Byte.backspace]) held := by
  obtain ⟨before, raw, rfl, rfl⟩ := h
  refine ⟨before, raw ++ [Byte.backspace], ?_, ?_⟩
  · rw [List.append_assoc, List.cons_append]
  · simp [kept]

theorem EndsIn.append (h : EndsIn bytes held) {byte : UInt8} (hbyte : byte ≠ Byte.backspace) :
    EndsIn (bytes ++ [byte]) (held ++ [byte]) := by
  obtain ⟨before, raw, rfl, rfl⟩ := h
  refine ⟨before, raw ++ [byte], ?_, ?_⟩
  · rw [List.append_assoc, List.cons_append]
  · simp [kept, hbyte]

-- What is held came last. The ESC that may end a title is not in the store, but came last as well.
def Recent (bytes : Bytes) (reader : Reader) : Prop :=
  match reader.phase with
  | .collecting => EndsIn bytes reader.held
  | .title true => EndsIn bytes [Byte.escape]
  | _ => True

theorem endsIn_escape (bytes : Bytes) : EndsIn (bytes ++ [Byte.escape]) [Byte.escape] :=
  ⟨bytes, [], rfl, rfl⟩

theorem recent_readScanned (h : EndsIn bytes held) (byte : UInt8) (outcome : Scan) :
    Recent bytes (readScanned held byte outcome).1 := by
  cases outcome with
  | pending => exact h
  | title => trivial
  | known action => trivial
  | unknown =>
      dsimp only [readScanned]
      split <;> trivial
  | aborted => trivial

theorem recent_readOverlong (bytes held : Bytes) (byte : UInt8) :
    Recent (bytes ++ [byte]) (readOverlong held byte).1 := by
  unfold readOverlong
  split
  · trivial
  split
  · trivial
  split
  · subst_vars
    exact endsIn_escape bytes
  · trivial

theorem recent_readHeld (h : EndsIn bytes held) {byte : UInt8} (hbyte : byte ≠ Byte.backspace) :
    Recent (bytes ++ [byte]) (readHeld capacity held byte).1 := by
  unfold readHeld
  split
  · subst_vars
    exact endsIn_escape bytes
  split
  · exact recent_readScanned (h.append hbyte) byte _
  · exact recent_readOverlong bytes held byte

theorem Recent.read (h : Recent bytes reader) (byte : UInt8) :
    Recent (bytes ++ [byte]) (reader.read capacity byte).1 := by
  obtain ⟨phase, held⟩ := reader
  unfold Reader.read
  split
  · trivial
  split
  · subst_vars
    have hkeep : Recent (bytes ++ [Byte.backspace]) ⟨phase, held⟩ := by
      cases phase with
      | normal => trivial
      | collecting => exact EndsIn.backspace h
      | title sawEscape =>
          cases sawEscape with
          | false => trivial
          | true => exact EndsIn.backspace h
      | overlong => trivial
    split <;> exact hkeep
  split
  · split <;> trivial
  rename_i hbackspace _
  cases phase with
  | normal =>
      dsimp only
      split
      · subst_vars
        exact endsIn_escape bytes
      · trivial
  | collecting => exact recent_readHeld h hbackspace
  | title sawEscape =>
      cases sawEscape with
      | false =>
          dsimp only
          split
          · subst_vars
            exact endsIn_escape bytes
          · trivial
      | true =>
          dsimp only
          split
          · trivial
          · exact recent_readHeld h hbackspace
  | overlong => exact recent_readOverlong bytes held byte

theorem Recent.after (h : Recent bytes reader) (more : Bytes) :
    Recent (bytes ++ more) (reader.after capacity more) := by
  induction more generalizing bytes reader with
  | nil => rwa [List.append_nil]
  | cons byte rest ih =>
      rw [List.append_cons]
      exact ih (h.read byte)

-- An ESC begins a sequence wherever it comes, though in a title only the next byte tells.
theorem read_escape (capacity : Nat) (reader : Reader) :
    (reader.read capacity Byte.escape).1 = opened ∨
      (reader.read capacity Byte.escape).1 = ⟨.title true, []⟩ := by
  obtain ⟨phase, held⟩ := reader
  cases phase with
  | normal => exact .inl rfl
  | collecting => exact .inl rfl
  | title sawEscape =>
      cases sawEscape with
      | false => exact .inr rfl
      | true => exact .inl rfl
  | overlong => exact .inl rfl

theorem after_titleEscape (hall : ∀ byte ∈ kept raw, IsIntermediate byte) (hne : kept raw ≠ [])
    (hfits : (Byte.escape :: kept raw).length ≤ capacity) :
    after capacity ⟨.title true, []⟩ raw = ⟨.collecting, Byte.escape :: kept raw⟩ := by
  induction raw with
  | nil => exact absurd rfl hne
  | cons byte rest ih =>
      by_cases hbackspace : byte = Byte.backspace
      · subst hbackspace
        have hkept : kept (Byte.backspace :: rest) = kept rest := by simp [kept]
        rw [hkept] at hall hne hfits ⊢
        exact ih hall hne hfits
      · have hkept : kept (byte :: rest) = byte :: kept rest := by simp [kept, hbackspace]
        rw [hkept] at hall hfits ⊢
        have hbyte : IsIntermediate byte := hall byte (by simp)
        have hbackslash : byte ≠ Byte.backslash := by
          rintro rfl
          exact absurd hbyte (by decide)
        have hopen : Sequence.Open ([Byte.escape] ++ [byte]) :=
          .intermediates [byte] (by simp) (by simpa using hbyte)
        have hroom : [Byte.escape].length < capacity := by
          simp only [List.length_cons, List.length_nil] at hfits ⊢
          omega
        have hread := read_ordinary capacity (Byte.ordinary_of_ge hbyte.1) ⟨.title true, []⟩
        dsimp only at hread
        rw [if_neg hbackslash, readHeld_of_lt (ne_escape hbyte.1) hroom,
          Sequence.scan_open hopen] at hread
        rw [after_cons, hread]
        exact (read_collecting rest (by simp) (.intermediates _ (by simp) hall) hfits).1

theorem after_intermediates (reader : Reader) (hall : ∀ byte ∈ kept raw, IsIntermediate byte)
    (hne : kept raw ≠ []) (hfits : (Byte.escape :: kept raw).length ≤ capacity) :
    reader.after capacity (Byte.escape :: raw) = ⟨.collecting, Byte.escape :: kept raw⟩ := by
  rw [after_cons]
  rcases read_escape capacity reader with hopened | htitle
  · rw [hopened]
    exact (read_collecting raw (by simp) (.intermediates _ hne hall) hfits).1
  · rw [htitle]
    exact after_titleEscape hall hne hfits

end TerminalRelay.Reader
