import TerminalRelay.Proofs.Writer.Partial

namespace TerminalRelay

-- Where the write went that failed, if it was one
def SessionError.target? : SessionError → Option Target
  | lineTooLong _ => none
  | write target _ => some target
  | writeZero target => some target

-- What an answer ends a delivery with, if it does
def Answer.fault? (target : Target) : Answer → Option SessionError
  | take limit => if limit = 0 then some (.writeZero target) else none
  | fail fault => if fault.kind.isTransient then none else some (.write target fault)

def Device.fault? (target : Target) : Device → Option SessionError
  | accepting => none
  | full => some (.write target .noSpace)

theorem Answer.target_fault {target : Target} {answer : Answer} {error : SessionError}
    (h : answer.fault? target = some error) : error.target? = some target := by
  unfold Answer.fault? at h
  split at h
  · split at h
    · cases h
      rfl
    · exact absurd h (by simp)
  · split at h
    · exact absurd h (by simp)
    · cases h
      rfl

theorem Device.target_fault {target : Target} {device : Device} {error : SessionError}
    (h : device.fault? target = some error) : error.target? = some target := by
  cases device with
  | accepting => exact absurd h (by simp [Device.fault?])
  | full =>
      cases h
      rfl

namespace Writer

variable {target : Target} {writer reached last : Writer} {asked later : Nat}
  {error : SessionError} {outcome : Outcome Writer}

-- The answers still to come are numbered: the prepared ones, and behind them the device's own.
def faultAt (target : Target) (writer : Writer) (position : Nat) : Option SessionError :=
  match writer.script[position]? with
  | some answer => answer.fault? target
  | none => writer.device.fault? target

-- So many offers were made, and each used up an answer.
structure Asked (writer : Writer) (asked : Nat) (reached : Writer) : Prop where
  offers : reached.offers = writer.offers + asked
  script : reached.script = writer.script.drop asked
  device : reached.device = writer.device

theorem Asked.refl (writer : Writer) : writer.Asked 0 writer := ⟨rfl, rfl, rfl⟩

theorem Asked.trans (h : writer.Asked asked reached) (h' : reached.Asked later last) :
    writer.Asked (asked + later) last where
  offers := by rw [h'.offers, h.offers, Nat.add_assoc]
  script := by rw [h'.script, h.script, List.drop_drop]
  device := h'.device.trans h.device

theorem Asked.faultAt (h : writer.Asked asked reached) (target : Target) (position : Nat) :
    reached.faultAt target position = writer.faultAt target (asked + position) := by
  rw [Writer.faultAt, Writer.faultAt, h.script, h.device, List.getElem?_drop]

-- So many offers were made, and none met with a fatal answer.
structure Spared (target : Target) (writer : Writer) (asked : Nat) (reached : Writer) :
    Prop where
  harmless : ∀ position < asked, writer.faultAt target position = none
  asked : writer.Asked asked reached

-- The last offer met with the first fatal answer there is, and the error is that one's.
def Halts (target : Target) (writer : Writer) (error : SessionError) (last : Writer) : Prop :=
  ∃ asked, (∀ position < asked, writer.faultAt target position = none) ∧
    writer.faultAt target asked = some error ∧ writer.Asked (asked + 1) last

-- How deliveries go: they meet with harmless answers alone, or fail with the first that is not.
inductive Spends (target : Target) (writer : Writer) : Outcome Writer → Prop
  | all {reached : Writer} (asked : Nat) (h : writer.Spared target asked reached) :
      Spends target writer ⟨reached, none⟩
  | halted {last : Writer} {error : SessionError} (h : writer.Halts target error last) :
      Spends target writer ⟨last, some error⟩

-- A failed delivery is told as one to its own destination.
theorem Halts.blames (h : writer.Halts target error last) : error.target? = some target := by
  obtain ⟨asked, -, hfatal, -⟩ := h
  unfold Writer.faultAt at hfatal
  split at hfatal
  · exact Answer.target_fault hfatal
  · exact Device.target_fault hfatal

theorem spared_refl (target : Target) (writer : Writer) : writer.Spared target 0 writer :=
  ⟨fun position hlt => absurd hlt (Nat.not_lt_zero position), .refl writer⟩

theorem Spared.harmless_add (h : writer.Spared target asked reached)
    (h' : ∀ position < later, reached.faultAt target position = none) :
    ∀ position < asked + later, writer.faultAt target position = none := by
  intro position hlt
  by_cases hle : position < asked
  · exact h.harmless position hle
  · have := h' (position - asked) (by omega)
    rwa [h.asked.faultAt, Nat.add_sub_cancel' (Nat.le_of_not_lt hle)] at this

theorem Spared.trans (h : writer.Spared target asked reached)
    (h' : reached.Spared target later last) : writer.Spared target (asked + later) last :=
  ⟨h.harmless_add h'.harmless, h.asked.trans h'.asked⟩

theorem Spared.halts (h : writer.Spared target asked reached)
    (h' : reached.Halts target error last) : writer.Halts target error last := by
  obtain ⟨later, hbefore, hfatal, hasked⟩ := h'
  refine ⟨asked + later, h.harmless_add hbefore, ?_, h.asked.trans hasked⟩
  rwa [← h.asked.faultAt]

theorem Spared.spends (h : writer.Spared target asked reached)
    (h' : reached.Spends target outcome) : writer.Spends target outcome := by
  cases h' with
  | all later hspared => exact .all (asked + later) (h.trans hspared)
  | halted hhalts => exact .halted (h.halts hhalts)

theorem Spends.andThen {next : Writer → Outcome Writer} (h : writer.Spends target outcome)
    (hnext : ∀ reached : Writer, reached.Spends target (next reached)) :
    writer.Spends target (outcome.andThen next) := by
  cases h with
  | all asked hspared => exact hspared.spends (hnext _)
  | halted hhalts => exact .halted hhalts

theorem Spends.halts (h : writer.Spends target outcome) (herror : outcome.error = some error) :
    writer.Halts target error outcome.state := by
  cases h with
  | all asked hspared => exact absurd herror (by simp)
  | halted hhalts =>
      cases herror
      exact hhalts

-- A single offer

theorem spared_one (hfault : writer.faultAt target 0 = none) (hasked : writer.Asked 1 reached) :
    writer.Spared target 1 reached := by
  refine ⟨?_, hasked⟩
  intro position hlt
  obtain rfl : position = 0 := by omega
  exact hfault

theorem halts_one (hfault : writer.faultAt target 0 = some error) (hasked : writer.Asked 1 last) :
    writer.Halts target error last :=
  ⟨0, fun position hlt => absurd hlt (Nat.not_lt_zero position), hfault, hasked⟩

theorem spends_deliverBy (target : Target) (script : List Answer) (writer : Writer)
    (bytes : Bytes) :
    Spends target { writer with script } (deliverBy target script writer bytes) := by
  fun_induction deliverBy target script writer bytes with
  | case1 script writer => exact .all 0 (spared_refl target _)
  | case2 writer bytes hne haccepting =>
      exact .all 1 (spared_one (by simp [faultAt, haccepting, Device.fault?]) ⟨rfl, rfl, rfl⟩)
  | case3 writer bytes hne hfull =>
      exact .halted (halts_one (by simp [faultAt, hfull, Device.fault?]) ⟨rfl, rfl, rfl⟩)
  | case4 script writer bytes hne taken =>
      exact .halted (halts_one (by simp [faultAt, Answer.fault?]) ⟨rfl, rfl, rfl⟩)
  | case5 limit script writer bytes hne taken hpos ih =>
      have hspared : Spared target { writer with script := .take limit :: script } 1
          { taken with script } :=
        spared_one (by simp [faultAt, Answer.fault?, hpos]) ⟨rfl, rfl, rfl⟩
      exact hspared.spends ih
  | case6 fault script writer bytes hne htransient ih =>
      have hspared : Spared target { writer with script := .fail fault :: script } 1
          { writer.refuse with script } :=
        spared_one (by simp [faultAt, Answer.fault?, htransient]) ⟨rfl, rfl, rfl⟩
      exact hspared.spends ih
  | case7 fault script writer bytes hne htransient =>
      exact .halted (halts_one (by simp [faultAt, Answer.fault?, htransient]) ⟨rfl, rfl, rfl⟩)

-- Whatever a destination answers, a delivery goes on until all is taken or an answer is fatal, and
-- asks for no answer after that.
theorem spends_deliver (writer : Writer) (target : Target) (bytes : Bytes) :
    writer.Spends target (writer.deliver target bytes) :=
  spends_deliverBy target writer.script writer bytes

theorem target_deliver {bytes : Bytes} (h : (writer.deliver target bytes).error = some error) :
    error.target? = some target :=
  ((spends_deliver writer target bytes).halts h).blames

end Writer

end TerminalRelay
