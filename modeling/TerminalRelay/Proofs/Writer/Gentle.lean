import TerminalRelay.Writer

namespace TerminalRelay

-- An answer that puts no end to a delivery: some bytes are taken, or another try is asked for.
def Answer.Gentle : Answer → Prop
  | take limit => 0 < limit
  | fail fault => fault.kind.isTransient = true

namespace Writer

-- A destination that in the end takes all it is offered, though perhaps in parts.
structure Gentle (writer : Writer) : Prop where
  device : writer.device = .accepting
  script : ∀ answer ∈ writer.script, answer.Gentle

@[simp] theorem contents_record (writer : Writer) (bytes : Bytes) :
    (writer.record bytes).contents = writer.contents ++ bytes := by
  simp [contents, record]

-- Nothing to deliver is no reason for an offer.
theorem deliver_nil (writer : Writer) (target : Target) :
    writer.deliver target [] = ⟨writer, none⟩ := by
  obtain ⟨script, device, taken, offers⟩ := writer
  cases script <;> rfl

-- A delivery that ends well: the bytes were taken, and the next ones will be.
structure Accepts (writer : Writer) (bytes : Bytes) (outcome : Outcome Writer) : Prop where
  error : outcome.error = none
  gentle : outcome.state.Gentle
  contents : outcome.state.contents = writer.contents ++ bytes

-- Recursion is on the answers, so the writer's own script plays no part until the end.
theorem accepts_deliverBy (target : Target) (script : List Answer) (writer : Writer) (bytes : Bytes)
    (hdevice : writer.device = .accepting) (hscript : ∀ answer ∈ script, answer.Gentle) :
    Accepts writer bytes (deliverBy target script writer bytes) := by
  fun_induction deliverBy target script writer bytes with
  | case1 script writer => exact ⟨rfl, ⟨hdevice, hscript⟩, (List.append_nil _).symm⟩
  | case2 writer bytes hne haccepting =>
      exact ⟨rfl, ⟨hdevice, by simp⟩, contents_record writer bytes⟩
  | case3 writer bytes hne hfull => simp [hfull] at hdevice
  | case4 script writer bytes hne taken =>
      exact absurd (hscript (.take 0) (by simp)) (Nat.lt_irrefl 0)
  | case5 limit script writer bytes hne taken hpos ih =>
      obtain ⟨herror, hgentle, hcontents⟩ :=
        ih hdevice (fun answer ha => hscript answer (List.mem_cons_of_mem _ ha))
      refine ⟨herror, hgentle, ?_⟩
      rw [hcontents, contents_record, List.append_assoc, List.take_append_drop]
  | case6 fault script writer bytes hne htransient ih =>
      obtain ⟨herror, hgentle, hcontents⟩ :=
        ih hdevice (fun answer ha => hscript answer (List.mem_cons_of_mem _ ha))
      exact ⟨herror, hgentle, hcontents⟩
  | case7 fault script writer bytes hne htransient =>
      exact absurd (hscript (.fail fault) (by simp)) htransient

theorem Gentle.accepts {writer : Writer} (gentle : writer.Gentle) (target : Target)
    (bytes : Bytes) : writer.Accepts bytes (writer.deliver target bytes) :=
  accepts_deliverBy target _ writer bytes gentle.device gentle.script

theorem Accepts.andThen {writer : Writer} {first second : Bytes} {outcome : Outcome Writer}
    {next : Writer → Outcome Writer} (h : writer.Accepts first outcome)
    (hnext : ∀ reached : Writer, reached.Gentle → reached.Accepts second (next reached)) :
    writer.Accepts (first ++ second) (outcome.andThen next) := by
  obtain ⟨reached, error⟩ := outcome
  obtain ⟨herror, hgentle, hcontents⟩ := h
  dsimp only at herror hgentle hcontents
  subst herror
  obtain ⟨herror', hgentle', hcontents'⟩ := hnext reached hgentle
  refine ⟨herror', hgentle', hcontents'.trans ?_⟩
  rw [hcontents, List.append_assoc]

end Writer

end TerminalRelay
