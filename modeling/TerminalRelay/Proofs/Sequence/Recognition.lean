import TerminalRelay.Proofs.Sequence.Table
import Mathlib.Data.List.Induction
import Mathlib.Data.List.Infix

namespace TerminalRelay.Sequence

variable {q held : Bytes} {byte : UInt8}

-- Bytes from an ESC on that are scanned after each of them: the sequence was open up to the last.
structure Growing (q : Bytes) : Prop where
  head : q.head? = some Byte.escape
  pending : ∀ sofar, sofar <+: q → sofar ≠ q → scan sofar = .pending

-- The last byte closes what the others left open.
structure Ended (q : Bytes) : Prop extends Growing q where
  decided : scan q ≠ .pending

theorem Growing.append (h : Growing held) (hpending : scan held = .pending) (byte : UInt8) :
    Growing (held ++ [byte]) := by
  refine ⟨?_, ?_⟩
  · rw [List.head?_append, h.head]
    rfl
  · intro sofar hbegins hne
    rcases List.prefix_concat_iff.mp hbegins with heq | hearlier
    · exact absurd heq hne
    by_cases hwhole : sofar = held
    · rw [hwhole]
      exact hpending
    · exact h.pending sofar hearlier hwhole

theorem Growing.init (h : Growing (held ++ [byte])) (hne : held ≠ []) :
    Growing held ∧ scan held = .pending := by
  have hshorter {sofar : Bytes} (hbegins : sofar <+: held) : sofar ≠ held ++ [byte] := by
    rintro rfl
    have hlength := hbegins.length_le
    rw [List.length_append, List.length_singleton] at hlength
    omega
  have hpending : scan held = .pending :=
    h.pending held (List.prefix_append ..) (hshorter (List.prefix_refl held))
  refine ⟨⟨?_, ?_⟩, hpending⟩
  · obtain ⟨first, rest, rfl⟩ := List.exists_cons_of_ne_nil hne
    exact h.head
  · intro sofar hbegins _
    exact h.pending sofar (hbegins.trans (List.prefix_append ..)) (hshorter hbegins)

-- What is pending is the beginning of a sequence. The induction takes bytes from the end, as each
-- was scanned behind those before it.
theorem Growing.open (h : Growing q) (hpending : scan q = .pending) : Open q := by
  induction q using List.reverseRecOn with
  | nil => exact absurd h.head (by simp)
  | append_singleton held byte ih =>
      by_cases hne : held = []
      · subst hne
        have hbyte : byte = Byte.escape := by simpa using h.head
        rw [hbyte]
        exact .escape
      · obtain ⟨hheld, hscan⟩ := h.init hne
        exact (ih hheld hscan).append hpending

theorem Growing.exists_last (h : Growing q) (hlength : 2 ≤ q.length) :
    ∃ held byte, q = held ++ [byte] ∧ Open held := by
  rcases List.eq_nil_or_concat' q with rfl | ⟨held, byte, rfl⟩
  · exact absurd hlength (by simp)
  · have hne : held ≠ [] := by
      rintro rfl
      exact absurd hlength (by simp)
    obtain ⟨hheld, hscan⟩ := h.init hne
    exact ⟨held, byte, rfl, hheld.open hscan⟩

-- ESC alone is pending, and nothing shorter grows.
theorem Ended.two_le_length (h : Ended q) : 2 ≤ q.length := by
  match q, h with
  | [], h => exact absurd h.head (by simp)
  | [_], h => exact absurd rfl h.decided
  | _ :: _ :: _, _ => simp

theorem scan_eq_title_iff (hopen : Open held) (byte : UInt8) :
    scan (held ++ [byte]) = .title ↔ held ++ [byte] = [Byte.escape, ']'.toUInt8] := by
  refine ⟨fun hscan => ?_, fun heq => heq ▸ rfl⟩
  cases hopen with
  | escape =>
      rw [List.singleton_append, scan_escape] at hscan
      by_cases hclose : byte = ']'.toUInt8
      · rw [hclose]
        rfl
      · rw [if_neg hclose] at hscan
        split_ifs at hscan
  | control body hbody =>
      rw [List.cons_append, List.cons_append, scan_control] at hscan
      split at hscan
      · exact absurd hscan (by decide)
      · split at hscan
        · unfold controlMeaning at hscan
          split at hscan <;> exact absurd hscan (by simp)
        · exact absurd hscan (by decide)
  | intermediates bytes hne hbytes =>
      rw [List.cons_append, scan_intermediates bytes byte hne hbytes] at hscan
      split at hscan
      · exact absurd hscan (by decide)
      · split at hscan <;> exact absurd hscan (by decide)

-- A whole sequence is told by the table, or else it is unknown.
theorem Complete.scan_eq (h : Complete q) :
    (∃ body final action, q = controlSequence body final ∧ Means body final action ∧
      scan q = .known action) ∨
    (scan q = .unknown ∧ ∀ body final action, Means body final action →
      q ≠ controlSequence body final) := by
  cases h with
  | control body final hbody hfinal =>
      rw [scan_controlSequence hfinal, controlMeaning]
      cases haction : action? body final with
      | some action => exact .inl ⟨body, final, action, rfl, action?_eq_some_iff.mp haction, rfl⟩
      | none =>
          refine .inr ⟨rfl, ?_⟩
          rintro body' final' action hmeans heq
          obtain ⟨rfl, rfl⟩ := controlSequence_inj.mp heq
          rw [action?_eq_some_iff.mpr hmeans] at haction
          exact absurd haction (by simp)
  | escape intermediates final hintermediates hfinal hother =>
      exact .inr ⟨scan_otherEscape hintermediates hfinal hother, fun _ _ _ _ =>
        otherEscape_ne_controlSequence hintermediates⟩

theorem Means.control {body : Bytes} {final : UInt8} {action : Action}
    (h : Means body final action) : IsControlFinal final := by
  cases h with
  | appCursor digits on => cases on <;> decide
  | altScreen digits mode on => cases on <;> decide
  | _ => decide

theorem scan_of_means {body : Bytes} {final : UInt8} {action : Action}
    (h : Means body final action) : scan (controlSequence body final) = .known action := by
  rw [scan_controlSequence h.control]
  exact controlMeaning_of_some (action?_eq_some_iff.mpr h)

-- A byte that neither goes on with a sequence nor spoils it makes it whole, or opens a title.
theorem Ended.complete (h : Ended q) (htitle : scan q ≠ .title) (haborted : scan q ≠ .aborted) :
    Complete q := by
  obtain ⟨held, byte, rfl, hopen⟩ := h.exists_last h.two_le_length
  by_contra hnot
  refine haborted (scan_aborted hopen (fun hlonger => h.decided (scan_open hlonger)) hnot ?_)
  exact fun heq => htitle ((scan_eq_title_iff hopen byte).mpr heq)

-- Reading a stream on from an ESC comes to an end at most once.
theorem Ended.unique {stream left right : Bytes} (hleft : left <+: stream)
    (hright : right <+: stream) (h : Ended left) (h' : Ended right) : left = right := by
  rcases List.prefix_or_prefix_of_prefix hleft hright with hle | hle
  · by_contra hne
    exact h.decided (h'.pending left hle hne)
  · by_contra hne
    exact h'.decided (h.pending right hle fun heq => hne heq.symm)

-- A tilde ends every sequence.
theorem Open.complete (hopen : Open q) : Complete (q ++ ['~'.toUInt8]) := by
  cases hopen with
  | escape => exact .escape [] _ (by simp) (by decide) (by decide)
  | control body hbody => exact .control body _ hbody (by decide)
  | intermediates bytes hne hbytes =>
      exact .escape bytes _ hbytes (by decide) fun hnil => absurd hnil hne

theorem Growing.scan_eq_aborted_iff (h : Growing q) : scan q = .aborted ↔
    2 ≤ q.length ∧ ∀ last ∈ q.getLast?, ¬ (0x20 ≤ last ∧ last ≤ 0x7e) := by
  have hlast {held : Bytes} {byte : UInt8} (hopen : Open held) :
      scan (held ++ [byte]) = .aborted ↔ ∀ last ∈ (held ++ [byte]).getLast?,
        ¬ (0x20 ≤ last ∧ last ≤ 0x7e) := by
    rw [Sequence.scan_eq_aborted_iff hopen, List.getLast?_concat]
    simp [Byte.isPrintable]
  constructor
  · intro hscan
    have hended : Ended q := ⟨h, by simp [hscan]⟩
    obtain ⟨held, byte, rfl, hopen⟩ := h.exists_last hended.two_le_length
    exact ⟨hended.two_le_length, (hlast hopen).mp hscan⟩
  · rintro ⟨hlength, hbyte⟩
    obtain ⟨held, byte, rfl, hopen⟩ := h.exists_last hlength
    exact (hlast hopen).mpr hbyte

theorem Growing.scan_eq_known_iff (h : Growing q) (action : Action) : scan q = .known action ↔
    ∃ body final, q = controlSequence body final ∧ Means body final action := by
  constructor
  · intro hscan
    have hended : Ended q := ⟨h, by simp [hscan]⟩
    rcases (hended.complete (by simp [hscan]) (by simp [hscan])).scan_eq with
      ⟨body, final, action', heq, hmeans, hknown⟩ | ⟨hunknown, -⟩
    · obtain rfl : action = action' := by simpa [hscan] using hknown
      exact ⟨body, final, heq, hmeans⟩
    · exact absurd (hscan.symm.trans hunknown) (by simp)
  · rintro ⟨body, final, rfl, hmeans⟩
    exact scan_of_means hmeans

theorem Growing.scan_eq_unknown_iff (h : Growing q) : scan q = .unknown ↔
    Complete q ∧ ∀ body final action, Means body final action →
      q ≠ controlSequence body final := by
  constructor
  · intro hscan
    have hended : Ended q := ⟨h, by simp [hscan]⟩
    have hcomplete := hended.complete (by simp [hscan]) (by simp [hscan])
    rcases hcomplete.scan_eq with ⟨body, final, action, -, -, hknown⟩ | ⟨-, hnone⟩
    · exact absurd (hscan.symm.trans hknown) (by simp)
    · exact ⟨hcomplete, hnone⟩
  · rintro ⟨hcomplete, hnone⟩
    rcases hcomplete.scan_eq with ⟨body, final, action, heq, hmeans, -⟩ | ⟨hunknown, -⟩
    · exact absurd heq (hnone body final action hmeans)
    · exact hunknown

theorem Growing.scan_eq_title_iff (h : Growing q) :
    scan q = .title ↔ q = [Byte.escape, ']'.toUInt8] := by
  refine ⟨fun hscan => ?_, fun heq => heq ▸ rfl⟩
  have hended : Ended q := ⟨h, by simp [hscan]⟩
  obtain ⟨held, byte, rfl, hopen⟩ := h.exists_last hended.two_le_length
  exact (Sequence.scan_eq_title_iff hopen byte).mp hscan

theorem Growing.exists_complete (h : Growing q) (hpending : scan q = .pending) :
    ∃ more, Growing (q ++ more) ∧
      (scan (q ++ more) = .unknown ∨ ∃ action, scan (q ++ more) = .known action) := by
  refine ⟨['~'.toUInt8], h.append hpending _, ?_⟩
  rcases (h.open hpending).complete.scan_eq with ⟨body, final, action, -, -, hknown⟩ | ⟨hunknown, -⟩
  · exact .inr ⟨action, hknown⟩
  · exact .inl hunknown

-- Bytes that are scanned after each of them are judged by their form alone: open, the opening of a
-- title, spoilt by the last of them, an entry of the table with its number, or whole and none of
-- these. A stream from an ESC on has at most one beginning that is over, and whatever is open can
-- be ended well.
theorem scan_recognises :
    (∀ q, Growing q →
      (scan q = .pending ↔ Open q) ∧
      (scan q = .title ↔ q = [Byte.escape, ']'.toUInt8]) ∧
      (scan q = .aborted ↔
        2 ≤ q.length ∧ ∀ last ∈ q.getLast?, ¬ (0x20 ≤ last ∧ last ≤ 0x7e)) ∧
      (∀ action, scan q = .known action ↔
        ∃ body final, q = controlSequence body final ∧ Means body final action) ∧
      (scan q = .unknown ↔
        Complete q ∧ ∀ body final action, Means body final action →
          q ≠ controlSequence body final)) ∧
    (∀ stream left right, left <+: stream → right <+: stream → Ended left → Ended right →
      left = right) ∧
    ∀ q, Growing q → scan q = .pending →
      ∃ more, Growing (q ++ more) ∧
        (scan (q ++ more) = .unknown ∨ ∃ action, scan (q ++ more) = .known action) := by
  refine ⟨fun q h => ⟨⟨h.open, scan_open⟩, h.scan_eq_title_iff, h.scan_eq_aborted_iff,
    h.scan_eq_known_iff, h.scan_eq_unknown_iff⟩, ?_, fun q h => h.exists_complete⟩
  intro stream left right hleft hright h h'
  exact h.unique hleft hright h'

-- A switch of screens whose number has leading zeros
theorem scan_recognises_switch :
    let switch := controlSequence ("?001049".toList.map Char.toUInt8) 'h'.toUInt8
    Growing switch ∧ scan switch = .known (.altScreen .mode1049 true) := by
  intro switch
  have hpending : ∀ sofar ∈ switch.inits, sofar ≠ switch → scan sofar = .pending := by
    decide +kernel
  have hgrowing : Growing switch :=
    ⟨rfl, fun sofar hbegins => hpending sofar ((List.mem_inits ..).mpr hbegins)⟩
  refine ⟨hgrowing, ((scan_recognises.1 switch hgrowing).2.2.2.1 _).mpr ⟨_, _, rfl, ?_⟩⟩
  exact .altScreen ("001049".toList.map Char.toUInt8) .mode1049 true (by decide +kernel)
    (by decide +kernel)

end TerminalRelay.Sequence
