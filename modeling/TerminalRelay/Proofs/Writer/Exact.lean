import TerminalRelay.Proofs.Writer.Faults
import TerminalRelay.Terminal.Feed

namespace TerminalRelay

namespace Answer

variable {answer : Answer} {target : Target} {error : SessionError}

-- What an answer takes of an offer that is long enough
def limit : Answer → Nat
  | take limit => limit
  | fail _ => 0

-- What is left is to be offered again.
def retries : Answer → Bool
  | take _ => false
  | fail fault => fault.kind.isTransient

-- The answers that put an end to a delivery, and the error each is told as
inductive Ends (target : Target) : Answer → SessionError → Prop
  | nothing : Ends target (.take 0) (.writeZero target)
  | broken (fault : Fault) (hinterrupted : fault.kind ≠ .interrupted)
      (hwouldBlock : fault.kind ≠ .wouldBlock) : Ends target (.fail fault) (.write target fault)

theorem ends_iff : answer.Ends target error ↔ answer.fault? target = some error := by
  constructor
  · intro h
    cases h with
    | nothing => rfl
    | broken fault hinterrupted hwouldBlock =>
        simp [fault?, FaultKind.isTransient, hinterrupted, hwouldBlock]
  · intro h
    cases answer with
    | take limit =>
        by_cases hlimit : limit = 0
        · rw [fault?, if_pos hlimit] at h
          cases h
          rw [hlimit]
          exact .nothing
        · simp [fault?, hlimit] at h
    | fail fault =>
        by_cases htransient : fault.kind.isTransient = true
        · simp [fault?, htransient] at h
        · rw [fault?, if_neg htransient] at h
          cases h
          simp only [FaultKind.isTransient, Bool.or_eq_true, beq_iff_eq, not_or] at htransient
          exact .broken fault htransient.1 htransient.2

end Answer

namespace Writer

variable {target : Target} {writer begun reached last : Writer} {bytes : Bytes} {answer : Answer}
  {script before : List Answer} {asked : Nat} {error : SessionError} {outcome : Outcome Writer}

-- What these answers take of an offer that is long enough for all of them
def allowance : List Answer → Nat
  | [] => 0
  | answer :: answers => answer.limit + allowance answers

theorem allowance_append (first second : List Answer) :
    allowance (first ++ second) = allowance first + allowance second := by
  induction first with
  | nil => exact (Nat.zero_add _).symm
  | cons answer first ih => rw [List.cons_append, allowance, allowance, ih, Nat.add_assoc]

theorem allowance_take_le (answers : List Answer) {short long : Nat} (h : short ≤ long) :
    allowance (answers.take short) ≤ allowance (answers.take long) := by
  obtain ⟨rest, hrest⟩ := List.take_prefix_take_left h (l := answers)
  rw [← hrest, allowance_append]
  exact Nat.le_add_right _ _

-- Behind these answers stands the first one that ends a delivery of so many bytes, and it is met
-- while some of the bytes remain.
def Meets (target : Target) (script : List Answer) (length : Nat) (before : List Answer)
    (error : SessionError) : Prop :=
  ∃ answer after, script = before ++ answer :: after ∧ allowance before < length ∧
    (∀ earlier ∈ before, earlier.fault? target = none) ∧ answer.Ends target error

-- All bytes are taken, and each of the offers was made while some of them remained.
structure Completes (target : Target) (writer : Writer) (bytes : Bytes) (asked : Nat)
    (reached : Writer) : Prop where
  offers : writer.Asked asked reached
  contents : reached.contents = writer.contents ++ bytes
  remaining : ∀ position < asked, allowance (writer.script.take position) < bytes.length
  harmless : ∀ answer ∈ writer.script.take asked, answer.fault? target = none
  enough : asked ≤ writer.script.length → bytes.length ≤ allowance (writer.script.take asked)

-- What the answers before the fatal one take is taken, and no offer is made after that one.
structure Stops (target : Target) (writer : Writer) (bytes : Bytes) (before : List Answer)
    (error : SessionError) (last : Writer) : Prop where
  meets : Meets target writer.script bytes.length before error
  offers : writer.Asked (before.length + 1) last
  contents : last.contents = writer.contents ++ bytes.take (allowance before)

-- A destination that takes all it is offered once its prepared answers are used up
inductive Course (target : Target) (writer : Writer) (bytes : Bytes) : Outcome Writer → Prop
  | completes {reached : Writer} (asked : Nat)
      (h : Completes target writer bytes asked reached) : Course target writer bytes ⟨reached, none⟩
  | stops {last : Writer} (before : List Answer) (error : SessionError)
      (h : Stops target writer bytes before error last) :
      Course target writer bytes ⟨last, some error⟩

-- One answer that ends nothing, with what it takes
structure Advances (target : Target) (writer : Writer) (bytes : Bytes) (answer : Answer)
    (reached : Writer) : Prop where
  script : writer.script = answer :: reached.script
  offers : writer.Asked 1 reached
  harmless : answer.fault? target = none
  nonempty : bytes ≠ []
  contents : reached.contents = writer.contents ++ bytes.take answer.limit

theorem Advances.completes (h : Advances target writer bytes answer begun)
    (h' : Completes target begun (bytes.drop answer.limit) asked reached) :
    Completes target writer bytes (asked + 1) reached where
  offers := by
    rw [Nat.add_comm]
    exact h.offers.trans h'.offers
  contents := by
    rw [h'.contents, h.contents, List.append_assoc, List.take_append_drop]
  remaining := by
    intro position hlt
    cases position with
    | zero => exact List.length_pos_iff.mpr h.nonempty
    | succ position =>
        have hremaining := h'.remaining position (Nat.lt_of_succ_lt_succ hlt)
        rw [h.script, List.take_succ_cons, allowance]
        rw [List.length_drop] at hremaining
        omega
  harmless := by
    intro other hother
    rw [h.script, List.take_succ_cons] at hother
    cases hother with
    | head => exact h.harmless
    | tail _ hother => exact h'.harmless other hother
  enough := by
    intro hle
    rw [h.script, List.length_cons] at hle
    have henough := h'.enough (Nat.le_of_succ_le_succ hle)
    rw [h.script, List.take_succ_cons, allowance]
    rw [List.length_drop] at henough
    omega

theorem Advances.stops (h : Advances target writer bytes answer begun)
    (h' : Stops target begun (bytes.drop answer.limit) before error last) :
    Stops target writer bytes (answer :: before) error last where
  meets := by
    obtain ⟨fatal, after, hscript, hlt, hharmless, hfatal⟩ := h'.meets
    refine ⟨fatal, after, ?_, ?_, ?_, hfatal⟩
    · rw [h.script, hscript, List.cons_append]
    · rw [List.length_drop] at hlt
      rw [allowance]
      omega
    · intro earlier hearlier
      cases hearlier with
      | head => exact h.harmless
      | tail _ hearlier => exact hharmless earlier hearlier
  offers := by
    rw [List.length_cons, Nat.add_comm]
    exact h.offers.trans h'.offers
  contents := by
    rw [h'.contents, h.contents, List.append_assoc, allowance, List.take_add]

theorem Advances.course (h : Advances target writer bytes answer begun)
    (h' : Course target begun (bytes.drop answer.limit) outcome) :
    Course target writer bytes outcome := by
  cases h' with
  | completes asked h' => exact .completes (asked + 1) (h.completes h')
  | stops before error h' => exact .stops (answer :: before) error (h.stops h')

theorem stops_one (hscript : writer.script = answer :: last.script) (hasked : writer.Asked 1 last)
    (hne : bytes ≠ []) (hends : answer.Ends target error)
    (hcontents : last.contents = writer.contents) :
    Stops target writer bytes [] error last where
  meets := ⟨answer, last.script, hscript, List.length_pos_iff.mpr hne, by simp, hends⟩
  offers := hasked
  contents := hcontents.trans (List.append_nil _).symm

theorem course_deliverBy (target : Target) (script : List Answer) (writer : Writer) (bytes : Bytes)
    (haccepting : writer.device = .accepting) :
    Course target { writer with script } bytes (deliverBy target script writer bytes) := by
  fun_induction deliverBy target script writer bytes with
  | case1 script writer =>
      refine .completes 0 ⟨.refl _, (List.append_nil _).symm, ?_, by simp, fun _ => Nat.zero_le _⟩
      exact fun position hlt => absurd hlt (Nat.not_lt_zero position)
  | case2 writer bytes hne haccepts =>
      refine .completes 1 ⟨⟨rfl, rfl, rfl⟩, contents_record writer bytes, ?_, by simp, by simp⟩
      intro position hlt
      rw [List.take_nil]
      exact List.length_pos_iff.mpr hne
  | case3 writer bytes hne hfull => exact absurd (haccepting.symm.trans hfull) (by simp)
  | case4 script writer bytes hne taken =>
      have hnothing : (writer.record []).contents = writer.contents :=
        (contents_record writer []).trans (List.append_nil _)
      exact .stops [] _ (stops_one rfl ⟨rfl, rfl, rfl⟩ hne .nothing hnothing)
  | case5 limit script writer bytes hne taken hpos ih =>
      have hadvances : Advances target { writer with script := .take limit :: script } bytes
          (.take limit) { taken with script } :=
        ⟨rfl, ⟨rfl, rfl, rfl⟩, by simp [Answer.fault?, hpos], hne, contents_record writer _⟩
      exact hadvances.course (ih haccepting)
  | case6 fault script writer bytes hne htransient ih =>
      have hadvances : Advances target { writer with script := .fail fault :: script } bytes
          (.fail fault) { writer.refuse with script } :=
        ⟨rfl, ⟨rfl, rfl, rfl⟩, by simp [Answer.fault?, htransient], hne, (List.append_nil _).symm⟩
      exact hadvances.course (ih haccepting)
  | case7 fault script writer bytes hne htransient =>
      refine .stops [] _ (stops_one rfl ⟨rfl, rfl, rfl⟩ hne ?_ rfl)
      exact Answer.ends_iff.mpr (by simp [Answer.fault?, htransient])

theorem Meets.lt {length : Nat} (h : Meets target script length before error) :
    allowance before < length := by
  obtain ⟨answer, after, -, hlt, -⟩ := h
  exact hlt

theorem Meets.take {length : Nat} (h : Meets target script length before error) :
    script.take before.length = before := by
  obtain ⟨answer, after, rfl, -⟩ := h
  exact List.take_left

-- The first fatal answer is the only one.
theorem Meets.unique {length : Nat} {before' : List Answer} {error' : SessionError}
    (h : Meets target script length before error) (h' : Meets target script length before' error') :
    before = before' ∧ error = error' := by
  obtain ⟨answer, after, hscript, -, hharmless, hends⟩ := h
  obtain ⟨answer', after', hscript', -, hharmless', hends'⟩ := h'
  rw [Answer.ends_iff] at hends hends'
  rcases List.append_eq_append_iff.mp (hscript.symm.trans hscript') with
    ⟨between, hbefore, hrest⟩ | ⟨between, hbefore, hrest⟩
  · cases between with
    | nil =>
        obtain ⟨rfl, -⟩ := List.cons.inj hrest
        refine ⟨(hbefore.trans (List.append_nil before)).symm, ?_⟩
        exact Option.some.inj (hends.symm.trans hends')
    | cons first between =>
        obtain ⟨rfl, -⟩ := List.cons.inj hrest
        have hnone := hharmless' answer (by simp [hbefore])
        exact absurd (hends.symm.trans hnone) (by simp)
  · cases between with
    | nil =>
        obtain ⟨rfl, -⟩ := List.cons.inj hrest
        refine ⟨hbefore.trans (List.append_nil before'), ?_⟩
        exact Option.some.inj (hends.symm.trans hends')
    | cons first between =>
        obtain ⟨rfl, -⟩ := List.cons.inj hrest
        have hnone := hharmless answer' (by simp [hbefore])
        exact absurd (hends'.symm.trans hnone) (by simp)

-- Where all is taken, the answers that were asked for take enough, and none of them is fatal.
theorem Completes.not_meets (h : Completes target writer bytes asked reached) :
    ¬ Meets target writer.script bytes.length before error := by
  intro hmeets
  have hlt := hmeets.lt
  have hbefore := hmeets.take
  obtain ⟨answer, after, hscript, -, -, hends⟩ := hmeets
  rw [Answer.ends_iff] at hends
  have hasked : asked ≤ before.length := by
    refine Nat.le_of_not_lt fun hgt => ?_
    have hmem : answer ∈ writer.script.take asked := by
      rw [hscript, List.take_append]
      obtain ⟨more, hmore⟩ : ∃ more, asked - before.length = more + 1 :=
        ⟨asked - before.length - 1, by omega⟩
      simp [hmore]
    exact absurd (hends.symm.trans (h.harmless answer hmem)) (by simp)
  have hlength : before.length ≤ writer.script.length := by
    rw [hscript, List.length_append]
    exact Nat.le_add_right _ _
  have henough := h.enough (Nat.le_trans hasked hlength)
  have hle := allowance_take_le writer.script hasked
  rw [hbefore] at hle
  omega

-- The same destination without the answers that only ask for another try
def withoutRetries (writer : Writer) : Writer :=
  { writer with script := writer.script.filter fun answer => !answer.retries }

-- Two deliveries that differ in the number of their offers alone, and by the retries met
structure SameButRetries (script : List Answer) (writer other : Writer)
    (outcome patient : Outcome Writer) : Prop where
  error : patient.error = outcome.error
  taken : patient.state.taken = outcome.state.taken
  offers : patient.state.offers + writer.offers + script.countP Answer.retries =
    outcome.state.offers + other.offers + outcome.state.script.countP Answer.retries
  rest : patient.state.script = outcome.state.script.filter fun answer => !answer.retries

theorem sameButRetries_deliverBy (target : Target) (script : List Answer)
    (writer other : Writer) (bytes : Bytes) (htaken : other.taken = writer.taken)
    (hdevice : other.device = writer.device) :
    SameButRetries script writer other (deliverBy target script writer bytes)
      (deliverBy target (script.filter fun answer => !answer.retries) other bytes) := by
  fun_induction deliverBy target script writer bytes generalizing other with
  | case1 script writer =>
      rw [deliverBy]
      exact ⟨rfl, htaken, by simp only; omega, rfl⟩
  | case2 writer bytes hne haccepts =>
      have hother : deliverBy target [] other bytes =
          ⟨{ other.record bytes with script := [] }, none⟩ := by
        rw [deliverBy, hdevice, haccepts]
        exact hne
      rw [List.filter_nil, hother]
      refine ⟨rfl, congrArg (·.push bytes) htaken, ?_, rfl⟩
      simp only [record]
      omega
  | case3 writer bytes hne hfull =>
      have hother : deliverBy target [] other bytes =
          ⟨{ other.refuse with script := [] }, some (.write target .noSpace)⟩ := by
        rw [deliverBy, hdevice, hfull]
        exact hne
      rw [List.filter_nil, hother]
      refine ⟨rfl, htaken, ?_, rfl⟩
      simp only [refuse]
      omega
  | case4 script writer bytes hne taken =>
      rw [List.filter_cons_of_pos rfl, deliverBy, if_pos rfl]
      · refine ⟨rfl, congrArg (·.push (bytes.take 0)) htaken, ?_, rfl⟩
        rw [List.countP_cons_of_neg (by decide)]
        simp only [record, taken]
        omega
      · exact hne
  | case5 limit script writer bytes hne taken hpos ih =>
      rw [List.filter_cons_of_pos rfl, deliverBy, if_neg hpos]
      · obtain ⟨herror, htaken', hoffers, hrest⟩ :=
          ih (other.record (bytes.take limit)) (congrArg (·.push (bytes.take limit)) htaken) hdevice
        have hbegun : taken.offers = writer.offers + 1 := rfl
        have hother : (other.record (bytes.take limit)).offers = other.offers + 1 := rfl
        rw [hbegun, hother] at hoffers
        refine ⟨herror, htaken', ?_, hrest⟩
        rw [List.countP_cons_of_neg (by simp [Answer.retries])]
        omega
      · exact hne
  | case6 fault script writer bytes hne htransient ih =>
      rw [List.filter_cons_of_neg (by simp [Answer.retries, htransient])]
      obtain ⟨herror, htaken', hoffers, hrest⟩ := ih other htaken hdevice
      have hbegun : writer.refuse.offers = writer.offers + 1 := rfl
      rw [hbegun] at hoffers
      refine ⟨herror, htaken', ?_, hrest⟩
      rw [List.countP_cons_of_pos (by simp [Answer.retries, htransient])]
      omega
  | case7 fault script writer bytes hne htransient =>
      rw [List.filter_cons_of_pos (by simp [Answer.retries, htransient]), deliverBy,
        if_neg htransient]
      · refine ⟨rfl, htaken, ?_, rfl⟩
        rw [List.countP_cons_of_neg (by simp [Answer.retries, htransient])]
        simp only [refuse]
        omega
      · exact hne

-- What a delivery comes to, given the number of its offers and the bytes it puts behind the
-- contents: those are a beginning of what was to be delivered, and all of it exactly if there is no
-- error. No offer is made without bytes to offer, nor after the first fatal answer, which is the
-- one that is told. Answers that only ask for another try add to the number of offers, and that is
-- all they do.
structure Delivers (target : Target) (writer : Writer) (bytes : Bytes) (asked : Nat)
    (accepted : Bytes) (outcome : Outcome Writer) : Prop where
  isPrefix : accepted <+: bytes
  contents : outcome.state.contents = writer.contents ++ accepted
  all : outcome.error = none ↔ accepted = bytes
  offers : writer.Asked asked outcome.state
  remaining : ∀ position < asked, allowance (writer.script.take position) < bytes.length
  nothing : bytes = [] → asked = 0
  told : ∀ error, outcome.error = some error →
    ∃ before, Meets target writer.script bytes.length before error
  halts : ∀ before error, Meets target writer.script bytes.length before error →
    outcome.error = some error ∧ asked = before.length + 1 ∧
      accepted = bytes.take (allowance before)
  retries : ∃ patient : Outcome Writer,
    patient = writer.withoutRetries.deliver target bytes ∧ patient.error = outcome.error ∧
      patient.state.taken = outcome.state.taken ∧
      patient.state.offers + (writer.script.take asked).countP Answer.retries =
        outcome.state.offers

theorem retries_deliver (writer : Writer) (target : Target) (bytes : Bytes) (asked : Nat)
    (h : writer.Asked asked (writer.deliver target bytes).state) :
    ∃ patient : Outcome Writer,
      patient = writer.withoutRetries.deliver target bytes ∧
      patient.error = (writer.deliver target bytes).error ∧
      patient.state.taken = (writer.deliver target bytes).state.taken ∧
      patient.state.offers + (writer.script.take asked).countP Answer.retries =
        (writer.deliver target bytes).state.offers := by
  obtain ⟨herror, htaken, hoffers, -⟩ :=
    sameButRetries_deliverBy target writer.script writer writer.withoutRetries bytes rfl rfl
  refine ⟨_, rfl, herror, htaken, ?_⟩
  have hcount : writer.script.countP Answer.retries =
      (writer.script.take asked).countP Answer.retries +
        (writer.script.drop asked).countP Answer.retries := by
    rw [← List.countP_append, List.take_append_drop]
  have hscript : (deliverBy target writer.script writer bytes).state.script =
      writer.script.drop asked := h.script
  rw [hscript, hcount] at hoffers
  have hsame : writer.withoutRetries.offers = writer.offers := rfl
  rw [hsame] at hoffers
  simp only [deliver, withoutRetries] at hoffers ⊢
  omega

theorem Course.delivers (h : Course target writer bytes (writer.deliver target bytes)) :
    ∃ asked accepted,
      Delivers target writer bytes asked accepted (writer.deliver target bytes) := by
  have hretries := writer.retries_deliver target bytes
  generalize writer.deliver target bytes = outcome at h hretries
  cases h with
  | @completes reached asked h =>
      refine ⟨asked, bytes, List.prefix_rfl, h.contents, by simp, h.offers, h.remaining, ?_,
        by simp, fun before error hmeets => absurd hmeets h.not_meets, hretries _ h.offers⟩
      rintro rfl
      refine Nat.eq_zero_of_not_pos fun hpos => ?_
      exact absurd (h.remaining 0 hpos) (Nat.not_lt_zero _)
  | @stops last before error h =>
      have hlt := h.meets.lt
      have htake : (bytes.take (allowance before)).length = allowance before := by
        rw [List.length_take]
        omega
      refine ⟨before.length + 1, bytes.take (allowance before), List.take_prefix _ _, h.contents,
        ?_, h.offers, ?_, ?_, ?_, ?_, hretries _ h.offers⟩
      · refine iff_of_false (by simp) fun hall => ?_
        rw [hall] at htake
        omega
      · intro position hposition
        have hle := allowance_take_le writer.script (Nat.le_of_lt_succ hposition)
        rw [h.meets.take] at hle
        omega
      · rintro rfl
        exact absurd hlt (Nat.not_lt_zero _)
      · rintro other herror
        obtain rfl := Option.some.inj herror
        exact ⟨before, h.meets⟩
      · intro before' error' hmeets
        obtain ⟨rfl, rfl⟩ := h.meets.unique hmeets
        exact ⟨rfl, rfl, rfl⟩

-- A destination that takes all it is offered in the end is given everything, or everything up to
-- its first fatal answer. A log is written to in the same way.
theorem deliver_exact (haccepting : writer.device = .accepting) (bytes : Bytes) :
    (∀ target, ∃ asked accepted,
      Delivers target writer bytes asked accepted (writer.deliver target bytes)) ∧
    ∀ t : Terminal, t.rawLog = some writer → ∃ asked accepted outcome,
      Delivers .rawLog writer bytes asked accepted outcome ∧
      t.logRaw bytes = ⟨{ t with rawLog := some outcome.state }, outcome.error⟩ := by
  have hdelivers : ∀ target, ∃ asked accepted,
      Delivers target writer bytes asked accepted (writer.deliver target bytes) :=
    fun target => (course_deliverBy target writer.script writer bytes haccepting).delivers
  refine ⟨hdelivers, fun t hlog => ?_⟩
  obtain ⟨asked, accepted, h⟩ := hdelivers .rawLog
  refine ⟨asked, accepted, _, h, ?_⟩
  rw [Terminal.logRaw, hlog]

-- Two bytes, two retries and one more byte, and then an answer that takes nothing
theorem deliver_exact_zero :
    let writer : Writer := { script := [.take 2, .fail ⟨.interrupted, none⟩,
      .fail ⟨.wouldBlock, none⟩, .take 1, .take 0, .take 9] }
    let bytes : Bytes := [0x61, 0x62, 0x63, 0x64]
    let outcome := writer.deliver .pty bytes
    (∃ asked accepted, Delivers .pty writer bytes asked accepted outcome) ∧
      outcome.error = some (.writeZero .pty) ∧ outcome.state.contents = [0x61, 0x62, 0x63] ∧
      outcome.state.offers = 5 := by
  intro writer bytes outcome
  have haccepting : writer.device = .accepting := rfl
  obtain ⟨hdelivers, -⟩ := deliver_exact haccepting bytes
  exact ⟨hdelivers .pty, by decide, by decide, by decide⟩

end Writer

end TerminalRelay
