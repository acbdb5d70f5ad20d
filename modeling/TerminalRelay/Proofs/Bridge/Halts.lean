import TerminalRelay.Bridge.Relay
import TerminalRelay.Proofs.Keys.Losses
import TerminalRelay.Proofs.Session.Reachable
import TerminalRelay.Proofs.Terminal.Newlines

namespace TerminalRelay

def Halt.error : Halt → SessionError
  | session error => error
  | viewers error => error

namespace Session

variable {config : Config} {session : Session} {error : SessionError}

-- Output goes to the line and to the logs, and the viewers get it from elsewhere.
theorem Reachable.target_output (h : session.Reachable config) {chunk : Bytes}
    (herror : (session.output chunk).error = some error) : error.target? ≠ some .viewers := by
  have sound := h.terminal.sound
  have hfeed : (session.terminal.feed chunk).error = some error := herror
  rw [sound.error_feed, Option.or_eq_some_iff] at hfeed
  rcases hfeed with hraw | ⟨-, hinterpret⟩
  · obtain ⟨log, -, hdelivered⟩ := Option.bind_eq_some_iff.mp hraw
    simp [Writer.target_deliver hdelivered]
  · rcases sound.cleared.target_interpret hinterpret with htarget | htarget <;> simp [htarget]

theorem Reachable.target_keystrokes (h : session.Reachable config) {chunk : Bytes} {pty : Writer}
    (herror : (session.keystrokes chunk pty).error = some error) : error.target? = some .pty := by
  have hwrites := h.keys.settled.writesOwn session.terminal.modes pty chunk
  exact (hwrites.halts error herror).blames

end Session

namespace Relay

variable {config : Config} {relay reached last : Relay} {event : Event} {events : List Event}
  {error : SessionError} {halt : Halt}

-- The session's part in an event, before anything is done about it
def attend (relay : Relay) : Event → Outcome Session
  | .keys chunk => (relay.session.keystrokes chunk relay.pty).map Prod.fst
  | .output chunk => relay.session.output chunk

-- What an event comes to: the relay goes on, or the session fails and is dumped as it then is, or
-- the session does its part and the viewers refuse what it has for them.
inductive Steps (relay : Relay) (event : Event) : Relay × Option Halt → Prop
  | on {reached : Relay} (hplace : reached.place = relay.place)
      (hsession : ∀ {config : Config}, relay.session.Reachable config →
        reached.session.Reachable config) :
      Steps relay event (reached, none)
  | failed {last : Relay} {error : SessionError}
      (hfailed : (relay.attend event).error = some error)
      (hsession : last.session = (relay.attend event).state)
      (hdumps : last.dumps =
        relay.dumps.push { text := last.session.dump, fault := relay.place.fault }) :
      Steps relay event (last, some (.session error))
  | refused {last : Relay} {error : SessionError} (hdone : (relay.attend event).error = none)
      (hrefused : (relay.viewers.deliver .viewers
        (relay.attend event).state.terminal.viewers.bytes).error = some error)
      (hsession : last.session = (relay.attend event).state)
      (hdumps : last.dumps = relay.dumps) :
      Steps relay event (last, some (.viewers error))

theorem reachable_attend (h : relay.session.Reachable config) (event : Event) :
    (relay.attend event).state.Reachable config := by
  cases event with
  | keys chunk => exact h.perform (.keystrokes chunk relay.pty)
  | output chunk => exact h.perform (.output chunk)

theorem dumpOnRequest_frame (relay : Relay) :
    relay.dumpOnRequest.session = relay.session ∧ relay.dumpOnRequest.place = relay.place := by
  unfold dumpOnRequest
  split <;> exact ⟨rfl, rfl⟩

-- A resize and a dump that were asked for are all that is left to do about keystrokes.
theorem serve_frame (relay : Relay) :
    relay.applyResize.answerDumpRequest.session =
      relay.session.takeResize.2.takeDumpRequest.2 ∧
    relay.applyResize.answerDumpRequest.place = relay.place := by
  unfold answerDumpRequest
  dsimp only
  split
  · exact dumpOnRequest_frame _
  · exact ⟨rfl, rfl⟩

theorem steps_type (relay : Relay) (chunk : Bytes) :
    relay.Steps (.keys chunk) (relay.type chunk) := by
  unfold type
  dsimp only
  split
  case h_1 error herror => exact .failed herror rfl rfl
  case h_2 herror =>
    refine .on (serve_frame _).2 fun h => ?_
    rw [(serve_frame _).1]
    exact ((reachable_attend h (.keys chunk)).perform .takeResize).perform .takeDumpRequest

theorem steps_receive (relay : Relay) (chunk : Bytes) :
    relay.Steps (.output chunk) (relay.receive chunk) := by
  unfold receive
  dsimp only
  split
  case h_1 error herror => exact .failed herror rfl rfl
  case h_2 hdone =>
    have hgoes : ∀ {config : Config}, relay.session.Reachable config →
        (relay.session.output chunk).state.Reachable config :=
      fun h => reachable_attend h (.output chunk)
    unfold display
    dsimp only
    split
    · cases herror : (relay.viewers.deliver .viewers
          (relay.session.output chunk).state.terminal.viewers.bytes).error with
      | none => exact .on rfl hgoes
      | some error => exact .refused hdone herror rfl rfl
    · exact .on rfl hgoes

theorem steps_step (relay : Relay) (event : Event) : relay.Steps event (relay.step event) := by
  cases event with
  | keys chunk => exact steps_type relay chunk
  | output chunk => exact steps_receive relay chunk

theorem run_cons_on (h : relay.step event = (reached, none)) (rest : List Event) :
    relay.run (event :: rest) = reached.run rest := by
  rw [run, h]

theorem run_cons_halted (h : relay.step event = (last, some halt)) (rest : List Event) :
    relay.run (event :: rest) = (last, some halt) := by
  rw [run, h]

-- A run that halts does so at one event, after a run up to it that did not, and what comes behind
-- that event is not looked at.
theorem exists_halting_step (h : relay.run events = (last, some halt)) :
    ∃ before event after reached, events = before ++ event :: after ∧
      relay.run before = (reached, none) ∧ reached.step event = (last, some halt) ∧
      ∀ other, relay.run (before ++ event :: other) = (last, some halt) := by
  induction events generalizing relay with
  | nil => exact absurd h (by simp [run])
  | cons first rest ih =>
      obtain ⟨next, halt', hstep⟩ : ∃ next halt', relay.step first = (next, halt') := ⟨_, _, rfl⟩
      cases halt' with
      | none =>
          rw [run_cons_on hstep] at h
          obtain ⟨before, event, after, reached, rfl, hbefore, hhalting, hall⟩ := ih h
          refine ⟨first :: before, event, after, reached, rfl, ?_, hhalting, fun other => ?_⟩
          · rwa [run_cons_on hstep]
          · rw [List.cons_append, run_cons_on hstep]
            exact hall other
      | some halt' =>
          rw [run_cons_halted hstep] at h
          cases h
          exact ⟨[], first, rest, relay, rfl, rfl, hstep, run_cons_halted hstep⟩

theorem run_goes_on (h : relay.session.Reachable config)
    (hrun : relay.run events = (reached, none)) :
    reached.session.Reachable config ∧ reached.place = relay.place := by
  induction events generalizing relay with
  | nil =>
      cases hrun
      exact ⟨h, rfl⟩
  | cons first rest ih =>
      obtain ⟨next, halt', hstep⟩ : ∃ next halt', relay.step first = (next, halt') := ⟨_, _, rfl⟩
      have hsteps := steps_step relay first
      rw [hstep] at hsteps
      cases hsteps with
      | on hplace hsession =>
          rw [run_cons_on hstep] at hrun
          obtain ⟨hreached, hsame⟩ := ih (hsession h) hrun
          exact ⟨hreached, hsame.trans hplace⟩
      | failed =>
          rw [run_cons_halted hstep] at hrun
          exact absurd hrun (by simp)
      | refused =>
          rw [run_cons_halted hstep] at hrun
          exact absurd hrun (by simp)

theorem target_attend (h : relay.session.Reachable config)
    (herror : (relay.attend event).error = some error) : error.target? ≠ some .viewers := by
  cases event with
  | keys chunk => simp [h.target_keystrokes herror]
  | output chunk => exact h.target_output herror

-- A run that halts does so at the first event that fails, with the session as its own part in that
-- event left it, whatever else arrives. An error from the session, be it of the line, of a log or
-- of the pty, has left a dump of that session, or an attempt at one. An error from the viewers'
-- stream has left none.
theorem run_dumps (h : relay.session.Reachable config)
    (hrun : relay.run events = (last, some halt)) :
    ∃ before event after reached, events = before ++ event :: after ∧
      relay.run before = (reached, none) ∧
      (∀ other, relay.run (before ++ event :: other) = (last, some halt)) ∧
      last.session = (reached.attend event).state ∧
      (halt.error.target? ≠ some .viewers →
        halt = .session halt.error ∧ (reached.attend event).error = some halt.error ∧
        last.dumps = reached.dumps.push
          { text := last.session.dump, fault := relay.place.fault }) ∧
      (halt.error.target? = some .viewers →
        halt = .viewers halt.error ∧ (reached.attend event).error = none ∧
        (reached.viewers.deliver .viewers last.session.terminal.viewers.bytes).error =
          some halt.error ∧
        last.dumps = reached.dumps) := by
  obtain ⟨before, event, after, reached, hevents, hbefore, hstep, hall⟩ := exists_halting_step hrun
  obtain ⟨hreached, hplace⟩ := run_goes_on h hbefore
  refine ⟨before, event, after, reached, hevents, hbefore, hall, ?_⟩
  have hsteps := steps_step reached event
  rw [hstep] at hsteps
  cases hsteps with
  | failed hfailed hsession hdumps =>
      refine ⟨hsession, fun _ => ⟨rfl, hfailed, ?_⟩, ?_⟩
      · rwa [hplace] at hdumps
      · exact fun hviewers => absurd hviewers (target_attend hreached hfailed)
  | refused hdone hrefused hsession hdumps =>
      refine ⟨hsession, ?_, fun _ => ⟨rfl, hdone, ?_, hdumps⟩⟩
      · exact fun hother => absurd (Writer.target_deliver hrefused) hother
      · rwa [hsession]

-- A line of two bytes that is given a third, with keystrokes before it and output behind
theorem run_dumps_overrun :
    let relay : Relay :=
      { session := .ofConfig { lineCapacity := 2 }, window := ⟨24, 80⟩, place := { path := "" } }
    let events : List Event := [.keys [0x61], .output [0x61, 0x62, 0x63], .output [0x64]]
    ∃ before event after reached, events = before ++ event :: after ∧
      relay.run before = (reached, none) ∧
      (relay.run events).1.session = (reached.attend event).state ∧
      (relay.run events).1.dumps = reached.dumps.push
        { text := (relay.run events).1.session.dump, fault := none } := by
  intro relay events
  have hrun : relay.run events = ((relay.run events).1, some (.session (.lineTooLong 2))) :=
    Prod.ext rfl (by decide +kernel)
  obtain ⟨before, event, after, reached, hevents, hbefore, -, hsession, hdumped, -⟩ :=
    run_dumps .start hrun
  obtain ⟨-, -, hdumps⟩ := hdumped (by simp [Halt.error, SessionError.target?])
  exact ⟨before, event, after, reached, hevents, hbefore, hsession, hdumps⟩

-- Viewers that have no room for three letters of output: the run ends in an error of their stream,
-- and nothing is dumped.
theorem run_undumped :
    let relay : Relay :=
      { session := .ofConfig { lineCapacity := 8 }, viewers := { device := .full },
        window := ⟨24, 80⟩, place := { path := "dump" } }
    (relay.run [.output [0x61, 0x62, 0x63]]).2 =
      some (.viewers (.write .viewers .noSpace)) ∧
    (relay.run [.output [0x61, 0x62, 0x63]]).1.dumps = #[] := by
  decide +kernel

end Relay

end TerminalRelay
