import TerminalRelay.Proofs.Session.Reachable
import TerminalRelay.Proofs.Terminal.Alike
import TerminalRelay.Proofs.Terminal.Edits

namespace TerminalRelay

@[simp] theorem History.capacity_push (history : History) (raw : Bytes) :
    (history.push raw).capacity = history.capacity := by
  unfold push
  split
  · rfl
  · split <;> rfl

theorem History.capacity_foldl (history : History) (sequences : List Bytes) :
    (sequences.foldl push history).capacity = history.capacity := by
  induction sequences generalizing history with
  | nil => rfl
  | cons raw rest ih => rw [List.foldl_cons, ih, capacity_push]

namespace Terminal

theorem Reachable.unhandled_capacity {config : Config} {t : Terminal} (h : t.Reachable config) :
    t.unhandled.capacity = config.debugCapacity := by
  induction h with
  | start => rfl
  | @feed t chunk h ih =>
      have hread := (h.sound.cleared.reads_interpret chunk).unhandled
      rw [feed_state]
      exact (congrArg History.capacity hread).trans ((History.capacity_foldl _ _).trans ih)
  | reset h ih => exact ih
  | setLogs plain raw h ih => exact ih
  | setForward on h ih => exact ih
  | setModes modes h ih => exact ih

-- All that is left of a terminal that starts over: its room, its setting and its logs
structure SameBuild (t u : Terminal) : Prop where
  line : t.line.capacity = u.line.capacity
  held : t.held.capacity = u.held.capacity
  unhandled : t.unhandled.capacity = u.unhandled.capacity
  forward : t.forward = u.forward
  plainLog : t.plainLog = u.plainLog
  rawLog : t.rawLog = u.rawLog

theorem SameBuild.reset {t u : Terminal} (same : t.SameBuild u) (modes : Modes) :
    ({ t.reset with modes } : Terminal).Alike { u.reset with modes } := by
  have hline : t.line.reset.Alike u.line.reset :=
    ⟨same.line, rfl, rfl, (ByteRing.toList_reset _).trans (ByteRing.toList_reset _).symm⟩
  have hheld : t.held.reset.slices.1 = u.held.reset.slices.1 := by
    rw [(ByteRing.straight_reset _).slices, (ByteRing.straight_reset _).slices,
      ByteRing.toList_reset, ByteRing.toList_reset]
  have hunhandled : t.unhandled.clear = u.unhandled.clear := by
    simp only [History.clear, same.unhandled]
  exact ⟨⟨same.held, congrArg (Reader.mk .normal) hheld, hunhandled, rfl, hline, same.plainLog⟩,
    same.forward, rfl, rfl⟩

end Terminal

namespace Session

-- Two sessions that differ at most in cells that hold nothing
structure Alike (session other : Session) : Prop where
  terminal : session.terminal.Alike other.terminal
  rawLog : session.terminal.rawLog = other.terminal.rawLog
  keys : session.keys = other.keys
  sound : session.terminal.Sound
  sound' : other.terminal.Sound

variable {session other : Session}

theorem alike_reset (same : session.terminal.SameBuild other.terminal)
    (sound : session.terminal.Sound) (sound' : other.terminal.Sound) :
    session.reset.Alike other.reset :=
  ⟨same.reset {}, same.rawLog, rfl, sound.reset.congr rfl rfl, sound'.reset.congr rfl rfl⟩

theorem Alike.sameBuild (alike : session.Alike other) :
    session.terminal.SameBuild other.terminal where
  line := alike.terminal.page.line.capacity
  held := alike.terminal.capacity
  unhandled := congrArg History.capacity alike.terminal.unhandled
  forward := alike.terminal.forward
  plainLog := alike.terminal.page.plainLog
  rawLog := alike.rawLog

theorem Alike.output (alike : session.Alike other) (chunk : Bytes) :
    (session.output chunk).error = (other.output chunk).error ∧
    (session.output chunk).state.Alike (other.output chunk).state := by
  obtain ⟨herror, hfed, hlog⟩ :=
    alike.terminal.feed alike.rawLog alike.sound alike.sound' chunk
  exact ⟨herror, hfed, hlog, alike.keys, alike.sound.feed chunk, alike.sound'.feed chunk⟩

-- Keystrokes read no more of the terminal than its modes.
theorem Alike.keystrokes (alike : session.Alike other) (input : Bytes) (pty : Writer) :
    (session.keystrokes input pty).error = (other.keystrokes input pty).error ∧
    (session.keystrokes input pty).state.2 = (other.keystrokes input pty).state.2 ∧
    (session.keystrokes input pty).state.1.Alike (other.keystrokes input pty).state.1 := by
  have hfeed : session.keys.feed session.terminal.modes pty input =
      other.keys.feed other.terminal.modes pty input := by
    rw [alike.keys, alike.terminal.page.modes]
  have hmodes := congrArg (·.state.modes) hfeed
  exact ⟨congrArg (·.error) hfeed, congrArg (·.state.pty) hfeed, alike.terminal.setModes hmodes,
    alike.rawLog, congrArg (·.state.decoder) hfeed, alike.sound.congr rfl rfl,
    alike.sound'.congr rfl rfl⟩

theorem Alike.snapshot (alike : session.Alike other) : session.snapshot = other.snapshot := by
  have hterminal := alike.terminal
  have hphase : session.terminal.phase = other.terminal.phase :=
    congrArg Reader.phase hterminal.reader
  simp only [Session.snapshot, hterminal.page.line.content, hterminal.page.line.cursor, hphase,
    hterminal.page.modes, hterminal.forward, alike.keys, hterminal.unhandled]

theorem Alike.perform (alike : session.Alike other) (operation : Operation) :
    (session.perform operation).2 = (other.perform operation).2 ∧
    (session.perform operation).1.Alike (other.perform operation).1 := by
  cases operation with
  | output chunk =>
      obtain ⟨herror, hnext⟩ := alike.output chunk
      refine ⟨?_, hnext⟩
      simp only [Session.perform, herror, hnext.terminal.notices]
  | keystrokes input pty =>
      obtain ⟨herror, hpty, hnext⟩ := alike.keystrokes input pty
      refine ⟨?_, hnext⟩
      simp only [Session.perform, herror, hpty, hnext.keys]
  | reset => exact ⟨rfl, alike_reset alike.sameBuild alike.sound alike.sound'⟩
  | attachLogs plain raw =>
      refine ⟨rfl, alike_reset ?_ (alike.sound.congr rfl rfl) (alike.sound'.congr rfl rfl)⟩
      have same := alike.sameBuild
      exact ⟨same.line, same.held, same.unhandled, same.forward, rfl, rfl⟩
  | setForward on =>
      exact ⟨rfl, alike.terminal.setForward on, alike.rawLog, alike.keys,
        alike.sound.congr rfl rfl, alike.sound'.congr rfl rfl⟩
  | takeResize =>
      refine ⟨?_, alike.terminal, alike.rawLog, ?_, alike.sound, alike.sound'⟩
      · simp only [Session.perform, takeResize, alike.keys]
      · exact congrArg (fun keys => keys.takeResize.2) alike.keys
  | takeDumpRequest =>
      refine ⟨?_, alike.terminal, alike.rawLog, ?_, alike.sound, alike.sound'⟩
      · simp only [Session.perform, takeDumpRequest, alike.keys]
      · exact congrArg (fun keys => keys.takeDumpRequest.2) alike.keys
  | snapshot =>
      refine ⟨?_, alike⟩
      simp only [Session.perform, alike.snapshot]
  | dump =>
      refine ⟨?_, alike⟩
      simp only [Session.perform, Session.dump, alike.snapshot]

theorem Alike.performAll (alike : session.Alike other) (operations : List Operation) :
    (session.performAll operations).2 = (other.performAll operations).2 ∧
    (session.performAll operations).1.Alike (other.performAll operations).1 := by
  induction operations generalizing session other with
  | nil => exact ⟨rfl, alike⟩
  | cons operation rest ih =>
      obtain ⟨hanswered, hnext⟩ := alike.perform operation
      obtain ⟨hanswers, hlast⟩ := ih hnext
      refine ⟨?_, hlast⟩
      simp only [Session.performAll, hanswered, hanswers]

-- What there is to see of a session beside its answers: its line, the stream of its last call,
-- every write to its logs, and what keystrokes would write to a pty
structure SameSight (session other : Session) : Prop where
  line : session.terminal.line.toList = other.terminal.line.toList
  viewers : session.terminal.viewers.bytes = other.terminal.viewers.bytes
  plainLog : session.terminal.plainLog = other.terminal.plainLog
  rawLog : session.terminal.rawLog = other.terminal.rawLog
  pty : ∀ (input : Bytes) (pty : Writer),
    (session.keystrokes input pty).state.2 = (other.keystrokes input pty).state.2

-- No history tells the two apart, by an answer or by what there is to see at its end.
def Indistinguishable (session other : Session) : Prop :=
  ∀ operations : List Operation,
    (session.performAll operations).2 = (other.performAll operations).2 ∧
    SameSight (session.performAll operations).1 (other.performAll operations).1

theorem Alike.indistinguishable (alike : session.Alike other) :
    session.Indistinguishable other := by
  intro operations
  obtain ⟨hanswers, hlast⟩ := alike.performAll operations
  have hterminal := hlast.terminal
  refine ⟨hanswers, hterminal.page.line.content, ?_, hterminal.page.plainLog, hlast.rawLog, ?_⟩
  · rw [hterminal.viewers]
  · intro input pty
    exact (hlast.keystrokes input pty).2.1

-- A session in which nothing has happened yet, with these logs and this setting
def fresh (config : Config) (plain raw : Option Writer) (forward : Bool) : Session :=
  let session := (ofConfig config).setForward forward
  { session with terminal := session.terminal.setLogs plain raw }

theorem fresh_reset (config : Config) (plain raw : Option Writer) (forward : Bool) :
    (fresh config plain raw forward).reset = fresh config plain raw forward := rfl

variable {config : Config}

theorem Reachable.sameBuild (h : session.Reachable config) (plain raw : Option Writer) :
    (session.terminal.setLogs plain raw).SameBuild
      (fresh config plain raw session.terminal.forward).terminal := by
  have hterminal := h.terminal
  have hfresh : (fresh config plain raw session.terminal.forward).terminal.Reachable config :=
    .setLogs plain raw (.setForward _ .start)
  refine ⟨?_, ?_, ?_, rfl, rfl, rfl⟩
  · exact hterminal.line_capacity.trans hfresh.line_capacity.symm
  · exact hterminal.held_capacity.trans hfresh.held_capacity.symm
  · exact hterminal.unhandled_capacity.trans hfresh.unhandled_capacity.symm

theorem Reachable.attachLogs_alike (h : session.Reachable config) (plain raw : Option Writer) :
    (session.attachLogs plain raw).Alike (fresh config plain raw session.terminal.forward) := by
  have hfresh : (fresh config plain raw session.terminal.forward).terminal.Reachable config :=
    .setLogs plain raw (.setForward _ .start)
  rw [← fresh_reset]
  exact alike_reset (h.sameBuild plain raw) (h.terminal.sound.congr rfl rfl) hfresh.sound

-- Whatever was done with a session, and whether or not it failed, once reset it is as good as new.
-- So it is with other logs, and a second reset finds nothing to do.
theorem reset_fresh (h : session.Reachable config) :
    session.reset.Indistinguishable (fresh config session.terminal.plainLog
      session.terminal.rawLog session.terminal.forward) ∧
    (∀ plain raw : Option Writer, (session.attachLogs plain raw).Indistinguishable
      (fresh config plain raw session.terminal.forward)) ∧
    session.reset.reset = session.reset := by
  refine ⟨?_, fun plain raw => (h.attachLogs_alike plain raw).indistinguishable, rfl⟩
  have hsame := h.attachLogs_alike session.terminal.plainLog session.terminal.rawLog
  exact hsame.indistinguishable

-- A session whose line overflowed inside a title, with half a window size typed
theorem reset_fresh_overflowed :
    let begun := Session.ofConfig { lineCapacity := 2 }
    let failed := (begun.perform (.output [0x61, 0x62, 0x63, 0x1b, 0x5d])).1
    let session := (failed.perform (.keystrokes [0x5c, 0x77, 0x30] {})).1
    session.reset.Indistinguishable (fresh { lineCapacity := 2 } session.terminal.plainLog
      session.terminal.rawLog session.terminal.forward) :=
  (reset_fresh (.perform _ (.perform _ .start))).1

end Session

end TerminalRelay
