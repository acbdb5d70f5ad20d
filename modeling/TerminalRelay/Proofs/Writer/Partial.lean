import TerminalRelay.Proofs.Writer.Gentle

namespace TerminalRelay

namespace Outcome

variable {σ : Type} {outcome : Outcome σ} {error : SessionError}

theorem andThen_of_none (h : outcome.error = none) (next : σ → Outcome σ) :
    outcome.andThen next = next outcome.state := by
  obtain ⟨state, failure⟩ := outcome
  dsimp only at h
  rw [h]
  rfl

theorem andThen_of_some (h : outcome.error = some error) (next : σ → Outcome σ) :
    outcome.andThen next = outcome := by
  obtain ⟨state, failure⟩ := outcome
  dsimp only at h
  rw [h]
  rfl

end Outcome

-- What is taken of what was offered: a beginning, and all of it exactly if there is no error
structure Beginning (offered taken : Bytes) (error : Option SessionError) : Prop where
  isPrefix : taken <+: offered
  all : error = none ↔ taken = offered

namespace Beginning

variable {first second taken : Bytes} {error : Option SessionError} {failure : SessionError}

-- What a failure left out stays left out, whatever would have come after it.
theorem stopped (h : Beginning first taken (some failure)) (second : Bytes) :
    Beginning (first ++ second) taken (some failure) := by
  refine ⟨h.isPrefix.trans (List.prefix_append first second), ?_⟩
  refine iff_of_false (by simp) fun heq => ?_
  have hwhole : first <+: taken := heq ▸ List.prefix_append first second
  have hlength := Nat.le_antisymm h.isPrefix.length_le hwhole.length_le
  exact absurd (h.all.mpr (h.isPrefix.eq_of_length hlength)) (by simp)

theorem append (first : Bytes) (h : Beginning second taken error) :
    Beginning (first ++ second) (first ++ taken) error where
  isPrefix := (List.prefix_append_right_inj first).mpr h.isPrefix
  all := h.all.trans (List.append_right_inj first).symm

end Beginning

namespace Writer

-- What a delivery puts behind the contents: a beginning of what was offered, and all of it exactly
-- if there is no error.
def Begins (writer : Writer) (bytes : Bytes) (outcome : Outcome Writer) : Prop :=
  ∃ accepted, accepted <+: bytes ∧ outcome.state.contents = writer.contents ++ accepted ∧
    (outcome.error = none ↔ accepted = bytes)

-- A fatal answer puts an end to it before the last byte.
theorem begins_stopped {writer : Writer} {bytes : Bytes} {outcome : Outcome Writer}
    (hne : bytes ≠ []) (hcontents : outcome.state.contents = writer.contents)
    (herror : outcome.error ≠ none) : writer.Begins bytes outcome :=
  ⟨[], List.nil_prefix, hcontents.trans (List.append_nil _).symm,
    iff_of_false herror fun hnil => hne hnil.symm⟩

theorem begins_deliverBy (target : Target) (script : List Answer) (writer : Writer)
    (bytes : Bytes) : writer.Begins bytes (deliverBy target script writer bytes) := by
  fun_induction deliverBy target script writer bytes with
  | case1 script writer => exact ⟨[], List.nil_prefix, (List.append_nil _).symm, by simp⟩
  | case2 writer bytes hne haccepting =>
      exact ⟨bytes, List.prefix_rfl, contents_record writer bytes, by simp⟩
  | case3 writer bytes hne hfull => exact begins_stopped hne rfl (by simp)
  | case4 script writer bytes hne taken =>
      have hnothing : (writer.record []).contents = writer.contents :=
        (contents_record writer []).trans (List.append_nil _)
      exact begins_stopped hne hnothing (by simp)
  | case5 limit script writer bytes hne taken hpos ih =>
      obtain ⟨accepted, ⟨missed, hmissed⟩, hcontents, hall⟩ := ih
      refine ⟨bytes.take limit ++ accepted, ⟨missed, ?_⟩, ?_, ?_⟩
      · rw [List.append_assoc, hmissed, List.take_append_drop]
      · rw [hcontents, contents_record, List.append_assoc]
      · rw [hall]
        constructor
        · rintro rfl
          exact List.take_append_drop limit bytes
        · intro heq
          exact List.append_cancel_left (heq.trans (List.take_append_drop limit bytes).symm)
  | case6 fault script writer bytes hne htransient ih => exact ih
  | case7 fault script writer bytes hne htransient => exact begins_stopped hne rfl (by simp)

theorem begins_deliver (writer : Writer) (target : Target) (bytes : Bytes) :
    writer.Begins bytes (writer.deliver target bytes) :=
  begins_deliverBy target _ writer bytes

theorem begins_iff {writer : Writer} {bytes : Bytes} {outcome : Outcome Writer} :
    writer.Begins bytes outcome ↔ ∃ taken, Beginning bytes taken outcome.error ∧
      outcome.state.contents = writer.contents ++ taken := by
  constructor
  · rintro ⟨taken, hbegins, hcontents, hall⟩
    exact ⟨taken, ⟨hbegins, hall⟩, hcontents⟩
  · rintro ⟨taken, ⟨hbegins, hall⟩, hcontents⟩
    exact ⟨taken, hbegins, hcontents, hall⟩

theorem Begins.contents {writer : Writer} {bytes : Bytes} {outcome : Outcome Writer}
    (h : writer.Begins bytes outcome) (hnone : outcome.error = none) :
    outcome.state.contents = writer.contents ++ bytes := by
  obtain ⟨taken, -, hcontents, hall⟩ := h
  rw [hcontents, hall.mp hnone]

theorem Begins.andThen {writer : Writer} {first second : Bytes} {outcome : Outcome Writer}
    {next : Writer → Outcome Writer} (h : writer.Begins first outcome)
    (hnext : ∀ reached : Writer, reached.Begins second (next reached)) :
    writer.Begins (first ++ second) (outcome.andThen next) := by
  rw [begins_iff] at h ⊢
  obtain ⟨taken, hbeginning, hcontents⟩ := h
  obtain ⟨reached, error⟩ := outcome
  cases error with
  | none =>
      obtain ⟨more, hmore, hcontents'⟩ := begins_iff.mp (hnext reached)
      obtain rfl : taken = first := hbeginning.all.mp rfl
      refine ⟨taken ++ more, hmore.append taken, ?_⟩
      rw [Outcome.andThen, hcontents', hcontents, List.append_assoc]
  | some failure => exact ⟨taken, hbeginning.stopped second, hcontents⟩

end Writer

end TerminalRelay
