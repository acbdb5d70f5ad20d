import TerminalRelay.Proofs.Sequence.Open

namespace TerminalRelay.Sequence

theorem isParameter_of_isDigit {byte : UInt8} (h : Byte.isDigit byte = true) :
    IsParameter byte := by
  simp only [Byte.isDigit, Bool.and_eq_true, decide_eq_true_eq] at h
  exact ⟨UInt8.le_trans (by decide) h.1, UInt8.le_trans h.2 (by decide)⟩

theorem IsCount.isParameter {digits : Bytes} (h : IsCount digits) :
    ∀ byte ∈ digits, IsParameter byte :=
  fun byte hmem => isParameter_of_isDigit (h.1 byte hmem)

theorem controlMeaning_of_some {body : Bytes} {final : UInt8} {action : Action}
    (h : action? body final = some action) : controlMeaning body final = .known action := by
  simp [controlMeaning, h]

theorem count?_of_isCount {digits : Bytes} (h : IsCount digits) :
    count? digits = some (count digits) := by
  obtain ⟨hdigits, hbound⟩ := h
  have hall : digits.all Byte.isDigit = true := List.all_eq_true.mpr hdigits
  rw [count?, if_pos ⟨hall, hbound⟩, count]
  congr 1
  split <;> omega

theorem isCount_of_count? {digits : Bytes} {n : Nat} (h : count? digits = some n) :
    IsCount digits := by
  rw [count?] at h
  by_cases hcount : digits.all Byte.isDigit ∧ Byte.decimal digits < Nat.pow 2 64
  · exact ⟨List.all_eq_true.mp hcount.1, hcount.2⟩
  · rw [if_neg hcount] at h
    exact absurd h (by simp)

-- The screen mode that digits other than those of 1 denote
def screenMode (digits : Bytes) : ScreenMode :=
  if Byte.decimal digits = 47 then .mode47
  else if Byte.decimal digits = 1047 then .mode1047
  else .mode1049

def modeAction (digits : Bytes) (on : Bool) : Action :=
  if Byte.decimal digits = 1 then .appCursor on else .altScreen (screenMode digits) on

theorem privateMode?_of_isPrivateMode {digits : Bytes} (h : IsPrivateMode digits)
    (on : Bool) : privateMode? digits on = some (modeAction digits on) := by
  obtain ⟨hdigits, hmode⟩ := h
  have hall : digits.all Byte.isDigit = true := List.all_eq_true.mpr hdigits
  have hne : digits.isEmpty = false := by
    cases digits with
    | nil => exact absurd hmode (by decide)
    | cons digit rest => rfl
  simp only [List.mem_cons, List.not_mem_nil, or_false] at hmode
  unfold privateMode? modeAction screenMode
  rcases hmode with hmode | hmode | hmode | hmode <;> simp [hall, hne, hmode]

theorem isPrivateMode_of_privateMode? {digits : Bytes} {on : Bool} {action : Action}
    (h : privateMode? digits on = some action) : IsPrivateMode digits := by
  unfold privateMode? at h
  split at h
  · exact absurd h (by simp)
  · rename_i hdigits
    rw [not_or, Decidable.not_not] at hdigits
    refine ⟨List.all_eq_true.mp hdigits.2, ?_⟩
    split at h
    · simp [*]
    · simp [*]
    · simp [*]
    · simp [*]
    · exact absurd h (by simp)

theorem decimal_of_isPrivateMode {digits : Bytes} (h : IsPrivateMode digits)
    (hone : Byte.decimal digits ≠ 1) : Byte.decimal digits = modeNumber (screenMode digits) := by
  have hmode := h.2
  simp only [List.mem_cons, List.not_mem_nil, or_false, hone, false_or] at hmode
  unfold screenMode
  rcases hmode with hmode | hmode | hmode <;> simp [hmode, modeNumber]

theorem modeNumber_mem (mode : ScreenMode) :
    modeNumber mode ∈ [1, 47, 1047, 1049] ∧ modeNumber mode ≠ 1 := by
  cases mode <;> decide

theorem screenMode_of_decimal {digits : Bytes} {mode : ScreenMode}
    (h : Byte.decimal digits = modeNumber mode) : screenMode digits = mode := by
  unfold screenMode
  cases mode <;> simp [h, modeNumber]

theorem Means.isUnderstood {body : Bytes} {final : UInt8} {action : Action}
    (h : Means body final action) : IsUnderstood body final := by
  have hswitch (on : Bool) : (if on then 'h'.toUInt8 else 'l'.toUInt8) ∈
      ['h'.toUInt8, 'l'.toUInt8] := by
    cases on <;> simp
  cases h with
  | eraseToEnd body hbody => exact .inl ⟨rfl, hbody⟩
  | cursorUp digits hcount => exact .inr (.inl ⟨by simp, hcount⟩)
  | cursorForward digits hcount => exact .inr (.inl ⟨by simp, hcount⟩)
  | deleteChars digits hcount => exact .inr (.inl ⟨by simp, hcount⟩)
  | appCursor digits on hdigits hmode =>
      exact .inr (.inr ⟨hswitch on, rfl, hdigits, by simp [hmode]⟩)
  | altScreen digits mode on hdigits hmode =>
      exact .inr (.inr ⟨hswitch on, rfl, hdigits, hmode ▸ (modeNumber_mem mode).1⟩)

theorem action?_of_means {body : Bytes} {final : UInt8} {action : Action}
    (h : Means body final action) : action? body final = some action := by
  have hswitch (digits : Bytes) (on : Bool) :
      action? ('?'.toUInt8 :: digits) (if on then 'h'.toUInt8 else 'l'.toUInt8) =
        privateMode? digits on := by
    cases on <;> rfl
  cases h with
  | eraseToEnd body hbody => exact if_pos hbody
  | cursorUp digits hcount => exact congrArg (Option.map _) (count?_of_isCount hcount)
  | cursorForward digits hcount => exact congrArg (Option.map _) (count?_of_isCount hcount)
  | deleteChars digits hcount => exact congrArg (Option.map _) (count?_of_isCount hcount)
  | appCursor digits on hdigits hmode =>
      rw [hswitch, privateMode?_of_isPrivateMode ⟨hdigits, by simp [hmode]⟩, modeAction,
        if_pos hmode]
  | altScreen digits mode on hdigits hmode =>
      obtain ⟨hmem, hone⟩ := modeNumber_mem mode
      rw [← hmode] at hmem hone
      rw [hswitch, privateMode?_of_isPrivateMode ⟨hdigits, hmem⟩, modeAction, if_neg hone,
        screenMode_of_decimal hmode]

theorem means_of_privateMode? {digits : Bytes} {on : Bool} {action : Action}
    (h : privateMode? digits on = some action) :
    Means ('?'.toUInt8 :: digits) (if on then 'h'.toUInt8 else 'l'.toUInt8) action := by
  have hmode := isPrivateMode_of_privateMode? h
  rw [privateMode?_of_isPrivateMode hmode, Option.some.injEq, modeAction] at h
  subst h
  by_cases hone : Byte.decimal digits = 1
  · rw [if_pos hone]
    exact .appCursor digits on hmode.1 hone
  · rw [if_neg hone]
    exact .altScreen digits _ on hmode.1 (decimal_of_isPrivateMode hmode hone)

theorem means_of_action? {body : Bytes} {final : UInt8} {action : Action}
    (h : action? body final = some action) : Means body final action := by
  have hcounted (make : Nat → Action) (h : (count? body).map make = some action) :
      IsCount body ∧ make (count body) = action := by
    obtain ⟨n, hn, hmake⟩ := Option.map_eq_some_iff.mp h
    have hcount := isCount_of_count? hn
    rw [count?_of_isCount hcount, Option.some.injEq] at hn
    exact ⟨hcount, hn ▸ hmake⟩
  unfold action? at h
  split at h
  · subst final
    split at h
    · obtain rfl := Option.some.inj h
      exact .eraseToEnd body ‹_›
    · exact absurd h (by simp)
  split at h
  · subst final
    obtain ⟨hcount, rfl⟩ := hcounted _ h
    exact .cursorUp body hcount
  split at h
  · subst final
    obtain ⟨hcount, rfl⟩ := hcounted _ h
    exact .cursorForward body hcount
  split at h
  · subst final
    obtain ⟨hcount, rfl⟩ := hcounted _ h
    exact .deleteChars body hcount
  split at h
  · rename_i hfinal
    split at h
    · split at h
      · subst_vars
        have hmeans := means_of_privateMode? h
        rcases hfinal with rfl | rfl <;> exact hmeans
      · exact absurd h (by simp)
    · exact absurd h (by simp)
  · exact absurd h (by simp)

-- The table has just these entries.
theorem action?_eq_some_iff {body : Bytes} {final : UInt8} {action : Action} :
    action? body final = some action ↔ Means body final action :=
  ⟨means_of_action?, action?_of_means⟩

theorem action?_eq_none {body : Bytes} {final : UInt8} (h : ¬ IsUnderstood body final) :
    action? body final = none := by
  rw [Option.eq_none_iff_forall_ne_some]
  intro action haction
  exact h (action?_eq_some_iff.mp haction).isUnderstood

theorem exists_action {body : Bytes} {final : UInt8} (h : IsUnderstood body final) :
    ∃ action, action? body final = some action := by
  rcases h with ⟨rfl, hbody⟩ | ⟨hfinal, hcount⟩ | ⟨hfinal, hmark, hmode⟩
  · exact ⟨.eraseToEnd, if_pos hbody⟩
  · have hcount' := count?_of_isCount hcount
    simp only [List.mem_cons, List.not_mem_nil, or_false] at hfinal
    rcases hfinal with rfl | rfl | rfl
    · exact ⟨_, congrArg (Option.map Action.cursorUp) hcount'⟩
    · exact ⟨_, congrArg (Option.map Action.cursorForward) hcount'⟩
    · exact ⟨_, congrArg (Option.map Action.deleteChars) hcount'⟩
  · obtain ⟨digits, rfl⟩ := List.head?_eq_some_iff.mp hmark
    simp only [List.mem_cons, List.not_mem_nil, or_false] at hfinal
    rcases hfinal with rfl | rfl
    · exact ⟨_, privateMode?_of_isPrivateMode hmode true⟩
    · exact ⟨_, privateMode?_of_isPrivateMode hmode false⟩

theorem controlSequence_inj {body body' : Bytes} {final final' : UInt8} :
    controlSequence body final = controlSequence body' final' ↔ body = body' ∧ final = final' := by
  simp [controlSequence, List.append_singleton_inj]

-- Only the introducer of control sequences has `[` behind ESC.
theorem otherEscape_ne_controlSequence {intermediates body : Bytes} {final final' : UInt8}
    (hall : ∀ byte ∈ intermediates, IsIntermediate byte) :
    Byte.escape :: (intermediates ++ [final]) ≠ controlSequence body final' := by
  intro heq
  cases intermediates with
  | nil => simp [controlSequence] at heq
  | cons first rest =>
      have hfirst : first = '['.toUInt8 := by simp [controlSequence] at heq; exact heq.1
      exact absurd (hall first (by simp)) (by rw [hfirst]; decide)

theorem scan_otherEscape {intermediates : Bytes} {final : UInt8}
    (hall : ∀ byte ∈ intermediates, IsIntermediate byte) (hfinal : IsEscapeFinal final)
    (hother : intermediates = [] → final ∉ ['['.toUInt8, ']'.toUInt8]) :
    scan (Byte.escape :: (intermediates ++ [final])) = .unknown := by
  have hintermediate : ¬ IsIntermediate final := by
    intro h
    exact absurd (UInt8.le_trans hfinal.1 h.2) (by decide)
  by_cases hne : intermediates = []
  · have hmem := hother hne
    simp only [List.mem_cons, List.not_mem_nil, or_false, not_or] at hmem
    rw [hne, List.nil_append, scan_escape, if_neg hmem.2, if_neg hmem.1, if_neg hintermediate,
      if_pos hfinal]
  · rw [scan_intermediates intermediates final hne hall, if_neg hintermediate, if_pos hfinal]

theorem IsControlFinal.not_parameter {byte : UInt8} (h : IsControlFinal byte) :
    ¬ IsParameter byte := by
  intro hparameter
  exact absurd (UInt8.le_trans h.1 hparameter.2) (by decide)

theorem scan_controlSequence {body : Bytes} {final : UInt8} (hfinal : IsControlFinal final) :
    scan (controlSequence body final) = controlMeaning body final := by
  rw [controlSequence, scan_control, if_neg hfinal.not_parameter, if_pos hfinal]

-- Only the final byte makes a sequence whole.
theorem Complete.open {held : Bytes} {byte : UInt8} (hcomplete : Complete (held ++ [byte]))
    (hne : held ≠ []) : Open held ∧ 0x20 ≤ byte := by
  generalize hwhole : held ++ [byte] = whole at hcomplete
  cases hcomplete with
  | control body final hbody hfinal =>
      have hsplit : controlSequence body final =
          (Byte.escape :: '['.toUInt8 :: body) ++ [final] := rfl
      rw [hsplit, List.append_singleton_inj] at hwhole
      obtain ⟨rfl, rfl⟩ := hwhole
      exact ⟨.control body hbody, UInt8.le_trans (by decide) hfinal.1⟩
  | escape intermediates final hintermediates hfinal hother =>
      rw [← List.cons_append, List.append_singleton_inj] at hwhole
      obtain ⟨rfl, rfl⟩ := hwhole
      refine ⟨?_, UInt8.le_trans (by decide) hfinal.1⟩
      by_cases hnil : intermediates = []
      · rw [hnil]
        exact .escape
      · exact .intermediates intermediates hnil hintermediates

-- What is left to a byte that neither goes on with a sequence nor ends it, nor opens a title
theorem scan_aborted {held : Bytes} {byte : UInt8} (hopen : Open held)
    (hnot : ¬ Open (held ++ [byte])) (hcomplete : ¬ Complete (held ++ [byte]))
    (htitle : held ++ [byte] ≠ [Byte.escape, ']'.toUInt8]) :
    scan (held ++ [byte]) = .aborted := by
  cases hopen with
  | escape =>
      have hclose : byte ≠ ']'.toUInt8 := by
        rintro rfl
        exact htitle rfl
      have hbracket : byte ≠ '['.toUInt8 := by
        rintro rfl
        exact hnot (.control [] (by simp))
      have hintermediate : ¬ IsIntermediate byte := by
        intro h
        exact hnot (.intermediates [byte] (by simp) (by simpa using h))
      have hfinal : ¬ IsEscapeFinal byte := by
        intro h
        exact hcomplete (.escape [] byte (by simp) h (by simp [hclose, hbracket]))
      rw [List.singleton_append, scan_escape, if_neg hclose, if_neg hbracket,
        if_neg hintermediate, if_neg hfinal]
  | control body hbody =>
      have hparameter : ¬ IsParameter byte := by
        intro h
        apply hnot
        refine .control (body ++ [byte]) ?_
        simpa [or_imp, forall_and] using ⟨hbody, h⟩
      have hfinal : ¬ IsControlFinal byte := fun h => hcomplete (.control body byte hbody h)
      rw [List.cons_append, List.cons_append, scan_control, if_neg hparameter, if_neg hfinal]
  | intermediates bytes hne hbytes =>
      have hintermediate : ¬ IsIntermediate byte := by
        intro h
        apply hnot
        refine .intermediates (bytes ++ [byte]) (by simp) ?_
        simpa [or_imp, forall_and] using ⟨hbytes, h⟩
      have hfinal : ¬ IsEscapeFinal byte :=
        fun h => hcomplete (.escape bytes byte hbytes h fun hnil => absurd hnil hne)
      rw [List.cons_append, scan_intermediates bytes byte hne hbytes, if_neg hintermediate,
        if_neg hfinal]

-- Either kind of sequence finds a use for every printable byte, and for no other.
theorem isPrintable_iff_control (byte : UInt8) :
    Byte.isPrintable byte = true ↔ IsParameter byte ∨ IsControlFinal byte := by
  simp only [Byte.isPrintable, IsParameter, IsControlFinal, Bool.and_eq_true, decide_eq_true_eq,
    UInt8.le_iff_toNat_le, UInt8.reduceToNat]
  omega

theorem isPrintable_iff_escape (byte : UInt8) :
    Byte.isPrintable byte = true ↔ IsIntermediate byte ∨ IsEscapeFinal byte := by
  simp only [Byte.isPrintable, IsIntermediate, IsEscapeFinal, Bool.and_eq_true, decide_eq_true_eq,
    UInt8.le_iff_toNat_le, UInt8.reduceToNat]
  omega

theorem controlMeaning_ne_aborted (body : Bytes) (final : UInt8) :
    controlMeaning body final ≠ .aborted := by
  unfold controlMeaning
  split <;> simp

theorem scan_eq_aborted_iff {held : Bytes} (hopen : Open held) (byte : UInt8) :
    scan (held ++ [byte]) = .aborted ↔ Byte.isPrintable byte = false := by
  rw [← Bool.not_eq_true]
  cases hopen with
  | escape =>
      rw [List.singleton_append, scan_escape, isPrintable_iff_escape]
      by_cases hclose : byte = ']'.toUInt8
      · subst hclose
        decide
      by_cases hbracket : byte = '['.toUInt8
      · subst hbracket
        decide
      rw [if_neg hclose, if_neg hbracket]
      by_cases hintermediate : IsIntermediate byte
      · simp [hintermediate]
      · by_cases hfinal : IsEscapeFinal byte <;> simp [hintermediate, hfinal]
  | control body hbody =>
      rw [List.cons_append, List.cons_append, scan_control, isPrintable_iff_control]
      by_cases hparameter : IsParameter byte
      · simp [hparameter]
      · by_cases hfinal : IsControlFinal byte
        · simp [hparameter, hfinal, controlMeaning_ne_aborted]
        · simp [hparameter, hfinal]
  | intermediates bytes hne hbytes =>
      rw [List.cons_append, scan_intermediates bytes byte hne hbytes, isPrintable_iff_escape]
      by_cases hintermediate : IsIntermediate byte
      · simp [hintermediate]
      · by_cases hfinal : IsEscapeFinal byte <;> simp [hintermediate, hfinal]

-- Where the table says that screens are switched
theorem altScreen_of_action? {body : Bytes} {final : UInt8} {mode : ScreenMode} {on : Bool}
    (h : action? body final = some (.altScreen mode on)) :
    ∃ digits, body = '?'.toUInt8 :: digits ∧ IsPrivateMode digits ∧ Byte.decimal digits ≠ 1 ∧
      final = if on then 'h'.toUInt8 else 'l'.toUInt8 := by
  cases action?_eq_some_iff.mp h with
  | altScreen digits mode on hdigits hmode =>
      obtain ⟨hmem, hone⟩ := modeNumber_mem mode
      rw [← hmode] at hmem hone
      exact ⟨digits, rfl, ⟨hdigits, hmem⟩, hone, rfl⟩

end TerminalRelay.Sequence
