import TerminalRelay.Proofs.Sequence.Grammar

namespace TerminalRelay.Sequence

-- The meaning of a whole control sequence, as `scan` tells it
def controlMeaning (body : Bytes) (final : UInt8) : Scan :=
  match action? body final with
  | some action => .known action
  | none => .unknown

theorem scan_escape (byte : UInt8) : scan [Byte.escape, byte] =
    if byte = ']'.toUInt8 then .title
    else if byte = '['.toUInt8 then .pending
    else if IsIntermediate byte then .pending
    else if IsEscapeFinal byte then .unknown
    else .aborted := rfl

theorem scan_control (body : Bytes) (byte : UInt8) :
    scan (Byte.escape :: '['.toUInt8 :: (body ++ [byte])) =
      if IsParameter byte then .pending
      else if IsControlFinal byte then controlMeaning body byte
      else .aborted := by
  have hne : '['.toUInt8 ≠ ']'.toUInt8 := by decide
  simp only [scan, hne, ite_false, ite_true, scanControl, List.getLast?_singleton,
    List.getLast?_append, Option.some_or, List.dropLast_concat]
  rfl

theorem scan_intermediates (bytes : Bytes) (byte : UInt8) (hne : bytes ≠ [])
    (hbytes : ∀ b ∈ bytes, IsIntermediate b) :
    scan (Byte.escape :: (bytes ++ [byte])) =
      if IsIntermediate byte then .pending
      else if IsEscapeFinal byte then .unknown
      else .aborted := by
  obtain ⟨first, rest, rfl⟩ := List.exists_cons_of_ne_nil hne
  have hfirst : IsIntermediate first := hbytes first (by simp)
  have htitle : first ≠ ']'.toUInt8 := by rintro rfl; exact absurd hfirst (by decide)
  have hcontrol : first ≠ '['.toUInt8 := by rintro rfl; exact absurd hfirst (by decide)
  simp only [scan, List.cons_append, htitle, hcontrol, ite_false]
  simp only [← List.cons_append, List.getLast_concat]
  rfl

theorem scan_open {held : Bytes} (hopen : Open held) : scan held = .pending := by
  cases hopen with
  | escape => rfl
  | control body hbody =>
      rcases List.eq_nil_or_concat body with rfl | ⟨before, last, rfl⟩
      · rfl
      · rw [List.concat_eq_append, scan_control, if_pos (hbody last (by simp))]
  | intermediates bytes hne hbytes =>
      rcases List.eq_nil_or_concat bytes with rfl | ⟨before, last, rfl⟩
      · exact absurd rfl hne
      · simp only [List.concat_eq_append, List.mem_append, List.mem_singleton] at hbytes ⊢
        have hlast : IsIntermediate last := hbytes last (.inr rfl)
        by_cases hbefore : before = []
        · subst hbefore
          rw [List.nil_append, scan_escape, if_pos hlast]
          split
          · subst_vars; exact absurd hlast (by decide)
          · split <;> rfl
        · rw [scan_intermediates _ _ hbefore (fun b hb => hbytes b (.inl hb)), if_pos hlast]

-- A sequence that stays pending with one more byte is still the beginning of one.
theorem Open.append {held : Bytes} {byte : UInt8} (hopen : Open held)
    (hscan : scan (held ++ [byte]) = .pending) : Open (held ++ [byte]) := by
  cases hopen with
  | escape =>
      rw [List.singleton_append, scan_escape] at hscan
      by_cases hbracket : byte = '['.toUInt8
      · subst hbracket
        exact .control [] (by simp)
      · by_cases hbyte : IsIntermediate byte
        · exact .intermediates [byte] (by simp) (by simpa using hbyte)
        · simp only [hbracket, hbyte, ite_false] at hscan
          split at hscan <;> try split at hscan
          all_goals exact absurd hscan (by decide)
  | control body hbody =>
      rw [List.cons_append, List.cons_append, scan_control] at hscan
      by_cases hbyte : IsParameter byte
      · refine .control (body ++ [byte]) ?_
        simpa [or_imp, forall_and] using ⟨hbody, hbyte⟩
      · simp only [hbyte, ite_false] at hscan
        split at hscan
        · unfold controlMeaning at hscan
          split at hscan <;> exact absurd hscan (by simp)
        · exact absurd hscan (by decide)
  | intermediates bytes hne hbytes =>
      rw [List.cons_append, scan_intermediates _ _ hne hbytes] at hscan
      by_cases hbyte : IsIntermediate byte
      · refine .intermediates (bytes ++ [byte]) (by simp) ?_
        simpa [or_imp, forall_and] using ⟨hbytes, hbyte⟩
      · simp only [hbyte, ite_false] at hscan
        split at hscan <;> exact absurd hscan (by decide)

-- A stream is read byte by byte, but from an ESC on as far as its sequence goes.
theorem stream_induction {p : Bytes → Prop} (nil : p [])
    (byte : ∀ byte rest, byte ≠ Byte.escape → p rest → p (byte :: rest))
    (escape : ∀ rest, (∀ later : Bytes, later.length ≤ rest.length → p later) →
      p (Byte.escape :: rest)) (bytes : Bytes) : p bytes := by
  induction hlength : bytes.length using Nat.strongRecOn generalizing bytes with
  | ind length ih =>
      cases bytes with
      | nil => exact nil
      | cons first rest =>
          have hlater : ∀ later : Bytes, later.length ≤ rest.length → p later := by
            intro later hle
            refine ih later.length ?_ later rfl
            rw [← hlength, List.length_cons]
            omega
          by_cases hescape : first = Byte.escape
          · subst hescape
            exact escape rest hlater
          · exact byte first rest hescape (hlater rest (Nat.le_refl _))

theorem kept_append (left right : Bytes) : kept (left ++ right) = kept left ++ kept right :=
  List.filter_append ..

-- A byte with which a sequence in a store of `limit` bytes does not go on
structure Stops (limit : Nat) (held : Bytes) (byte : UInt8) : Prop where
  running : Open held
  fits : held.length ≤ limit
  other : byte ≠ Byte.backspace
  ends : held.length = limit ∨ ¬ Open (held ++ [byte])

-- A sequence goes on to the end of the stream, or there is a byte that stops it.
theorem exists_stop {limit : Nat} (raw rest : Bytes) (hopen : Open (Byte.escape :: kept raw))
    (hfits : (Byte.escape :: kept raw).length ≤ limit) :
    (Open (Byte.escape :: kept (raw ++ rest)) ∧
      (Byte.escape :: kept (raw ++ rest)).length ≤ limit) ∨
    ∃ inner byte more, raw ++ rest = inner ++ byte :: more ∧
      Stops limit (Byte.escape :: kept inner) byte := by
  induction rest generalizing raw with
  | nil =>
      rw [List.append_nil]
      exact .inl ⟨hopen, hfits⟩
  | cons byte rest ih =>
      rw [List.append_cons]
      by_cases hbackspace : byte = Byte.backspace
      · have hkept : kept (raw ++ [byte]) = kept raw := by
          rw [kept_append, hbackspace]
          exact List.append_nil _
        exact ih (raw ++ [byte]) (by rwa [hkept]) (by rwa [hkept])
      have hkept : kept (raw ++ [byte]) = kept raw ++ [byte] := by
        simp [kept, hbackspace]
      by_cases hends : (Byte.escape :: kept raw).length = limit ∨
          ¬ Open (Byte.escape :: kept raw ++ [byte])
      · exact .inr ⟨raw, byte, rest, (List.append_cons ..).symm, hopen, hfits, hbackspace, hends⟩
      · rw [not_or, not_not] at hends
        refine ih (raw ++ [byte]) ?_ ?_
        · rw [hkept]
          exact hends.2
        · rw [hkept, ← List.cons_append, List.length_append, List.length_singleton]
          omega

end TerminalRelay.Sequence
