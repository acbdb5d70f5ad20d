import TerminalRelay.Proofs.Checked.Keys
import TerminalRelay.Proofs.Checked.Output
import TerminalRelay.Proofs.Session.Reachable

namespace TerminalRelay

structure BareSession where
  terminal : BareTerminal
  keys : BareKeys := {}

namespace BareSession

def ofConfig (config : Config) : Except Breach BareSession := do
  return { terminal := ← BareTerminal.ofConfig config }

def reset (session : BareSession) : BareSession where
  terminal := { session.terminal.reset with modes := {} }
  keys := {}

def attachLogs (session : BareSession) (plain raw : Option Writer) : BareSession :=
  { session with terminal := session.terminal.setLogs plain raw }.reset

def snapshot (session : BareSession) : Except Breach Snapshot := do
  let line ← session.terminal.line.toList
  return {
    line := Lossy.decode line
    lineLength := line.length
    linePosition := session.terminal.line.cursor
    phase := session.terminal.phase
    modes := session.terminal.modes
    forward := session.terminal.forward
    keyPhase := session.keys.phase
    resize := session.keys.resize
    protocolErrors := session.keys.protocolErrors
    unhandled := session.terminal.unhandled.entries
    dropped := session.terminal.unhandled.dropped }

def perform (session : BareSession) : Operation → Except Breach (BareSession × Answered)
  | .output chunk => do
    let outcome ← session.terminal.feed chunk
    return ({ session with terminal := outcome.state },
      { reply := .ended outcome.error, notices := outcome.state.notices.toList })
  | .keystrokes input pty => do
    let outcome ← session.keys.feed session.terminal.modes pty input
    return ({ terminal := { session.terminal with modes := outcome.state.modes }
              keys := outcome.state.keys },
      { reply := .ended outcome.error
        pty := outcome.state.pty.taken.toList
        notices := outcome.state.keys.notices.toList })
  | .reset => return (session.reset, { reply := .ended none })
  | .attachLogs plain raw => return (session.attachLogs plain raw, { reply := .ended none })
  | .setForward on =>
    return ({ session with terminal := session.terminal.setForward on }, { reply := .ended none })
  | .takeResize =>
    let (size, keys) := session.keys.takeResize
    return ({ session with keys }, { reply := .resize size })
  | .takeDumpRequest =>
    let (asked, keys) := session.keys.takeDumpRequest
    return ({ session with keys }, { reply := .dumpRequested asked })
  | .snapshot => do return (session, { reply := .snapshot (← session.snapshot) })
  | .dump => do return (session, { reply := .dump (← session.snapshot).toJson.pretty })

def performAll (session : BareSession) :
    List Operation → Except Breach (BareSession × List Answered)
  | [] => return (session, [])
  | operation :: rest => do
    let (session, answered) ← session.perform operation
    let (session, answers) ← session.performAll rest
    return (session, answered :: answers)

-- A whole history, from the making of the session on
def run (config : Config) (operations : List Operation) :
    Except Breach (BareSession × List Answered) := do
  (← ofConfig config).performAll operations

-- The rings and the stores of the keys are in order, and as large as they were made.
structure Bounded (config : Config) (session : BareSession) : Prop where
  line : session.terminal.line.Bounded
  lineCapacity : session.terminal.line.capacity = max config.lineCapacity 1
  held : session.terminal.held.Bounded
  heldCapacity : session.terminal.held.capacity = max config.escapeCapacity 8
  keys : session.keys.Bounded

-- The session that a bare one is
structure Represents (bare : BareSession) (session : Session) : Prop where
  terminal : bare.terminal = session.terminal.bare
  keys : bare.keys.decoder = session.keys
  bounded : bare.keys.Bounded

end BareSession

-- There is no memory of 2 ^ 63 bytes to be had, neither for a ring nor for the entries of the
-- history, which take 48 bytes each.
def Config.Allocates (config : Config) : Prop :=
  config.lineCapacity < 2 ^ 63 ∧ config.escapeCapacity < 2 ^ 63 ∧
    config.debugCapacity * 48 < 2 ^ 63

namespace BareSession

variable {config : Config} {bare : BareSession} {session : Session}

theorem bounded_new : ({} : BareKeys).Bounded :=
  ⟨Array.size_replicate, Nat.zero_lt_succ 7, Array.size_replicate, Nat.zero_le 256⟩

theorem Represents.bounded_of_reachable (h : bare.Represents session)
    (reachable : session.Reachable config) : bare.Bounded config := by
  have hline := reachable.terminal.line_capacity
  have hheld := reachable.terminal.held_capacity
  refine ⟨?_, ?_, ?_, ?_, h.bounded⟩
  · rw [h.terminal]
    exact session.terminal.line.bounded_bare
  · rw [h.terminal]
    exact hline
  · rw [h.terminal]
    exact session.terminal.held.bounded_bare
  · rw [h.terminal]
    exact hheld

theorem ofConfig_eq (allocates : config.Allocates) :
    ∃ bare, ofConfig config = .ok bare ∧ bare.Represents (.ofConfig config) := by
  obtain ⟨hlineLimit, hheldLimit, hhistoryLimit⟩ := allocates
  have hline := ByteRing.bare_empty (show 0 < max config.lineCapacity 1 by omega) (by omega)
  have hheld := ByteRing.bare_empty (show 0 < max config.escapeCapacity 8 by omega) (by omega)
  have hentries : Checked.allocate config.debugCapacity Checked.entrySize = .ok () :=
    Checked.allocate_of_lt hhistoryLimit
  have hhistory : Checked.openHistory config.debugCapacity =
      .ok { capacity := config.debugCapacity } := by
    rw [Checked.openHistory, hentries]
    rfl
  simp only [ofConfig, BareTerminal.ofConfig, hline, hheld, hhistory, bind, Except.bind]
  exact ⟨_, rfl, rfl, rfl, bounded_new⟩

-- What is asked of the capacities is no more than that the session can be made.
theorem allocates_iff (config : Config) :
    config.Allocates ↔ ∃ bare, ofConfig config = .ok bare := by
  constructor
  · intro allocates
    obtain ⟨bare, hbare, -⟩ := ofConfig_eq allocates
    exact ⟨bare, hbare⟩
  · rintro ⟨bare, hbare⟩
    unfold ofConfig BareTerminal.ofConfig BareRing.new Checked.openHistory Checked.allocate at hbare
    simp only [bind, Except.bind, pure, Except.pure] at hbare
    split_ifs at hbare with _ hline _ hheld hentries
    rw [Checked.memoryLimit] at hline hheld
    exact ⟨by omega, by omega, hentries⟩

theorem Represents.reset (h : bare.Represents session) : bare.reset.Represents session.reset := by
  refine ⟨?_, rfl, bounded_new⟩
  rw [BareSession.reset, h.terminal]
  rfl

theorem Represents.attachLogs (h : bare.Represents session) (plain raw : Option Writer) :
    (bare.attachLogs plain raw).Represents (session.attachLogs plain raw) := by
  refine ⟨?_, rfl, bounded_new⟩
  rw [BareSession.attachLogs, h.terminal]
  rfl

theorem Represents.snapshot (h : bare.Represents session) (hline : session.terminal.line.Fits) :
    bare.snapshot = .ok session.snapshot := by
  have hlist : bare.terminal.line.toList = .ok session.terminal.line.toList := by
    rw [h.terminal]
    exact hline.toList_bare
  have hphase : bare.keys.phase = session.keys.phase := congrArg KeyDecoder.phase h.keys
  have hresize : bare.keys.resize = session.keys.resize := congrArg KeyDecoder.resize h.keys
  have herrors : bare.keys.protocolErrors = session.keys.protocolErrors :=
    congrArg KeyDecoder.protocolErrors h.keys
  rw [BareSession.snapshot, hlist, h.terminal, hphase, hresize, herrors]
  rfl

theorem Represents.output (h : bare.Represents session) (reachable : session.Reachable config)
    (hline : session.terminal.line.Fits) (hheld : session.terminal.held.Fits) (chunk : Bytes) :
    ∃ next, bare.perform (.output chunk) = .ok (next, (session.perform (.output chunk)).2) ∧
      next.Represents (session.perform (.output chunk)).1 := by
  have hfeed : bare.terminal.feed chunk =
      .ok ((session.terminal.feed chunk).map Terminal.bare) := by
    rw [h.terminal]
    exact reachable.terminal.sound.feed_bare hline hheld chunk
  rw [BareSession.perform, hfeed]
  exact ⟨_, rfl, rfl, h.keys, h.bounded⟩

-- The keys are read by their own stores, under the modes that the terminal has.
theorem Represents.keystrokes (h : bare.Represents session) (input : Bytes) (pty : Writer) :
    ∃ next, bare.perform (.keystrokes input pty) =
        .ok (next, (session.perform (.keystrokes input pty)).2) ∧
      next.Represents (session.perform (.keystrokes input pty)).1 := by
  have hmodes : bare.terminal.modes = session.terminal.modes := by
    rw [h.terminal]
    rfl
  obtain ⟨next, hrun, hbounded, houtcome⟩ := h.bounded.feed session.terminal.modes pty input
  rw [h.keys] at houtcome
  rw [BareSession.perform, hmodes, hrun]
  simp only [Session.perform, Session.keystrokes, ← houtcome]
  refine ⟨_, rfl, ?_, rfl, hbounded⟩
  rw [h.terminal]
  rfl

theorem Represents.takeResize (h : bare.Represents session) :
    ∃ next, bare.perform .takeResize = .ok (next, (session.perform .takeResize).2) ∧
      next.Represents (session.perform .takeResize).1 := by
  have hresize : bare.keys.resize = session.keys.resize := congrArg KeyDecoder.resize h.keys
  have hkeys := congrArg (fun keys : KeyDecoder => { keys with resize := none }) h.keys
  rw [BareSession.perform, BareKeys.takeResize, hresize]
  exact ⟨_, rfl, h.terminal, hkeys, h.bounded.sameStores rfl rfl rfl rfl⟩

theorem Represents.takeDumpRequest (h : bare.Represents session) :
    ∃ next, bare.perform .takeDumpRequest = .ok (next, (session.perform .takeDumpRequest).2) ∧
      next.Represents (session.perform .takeDumpRequest).1 := by
  have hasked : bare.keys.dumpRequested = session.keys.dumpRequested :=
    congrArg KeyDecoder.dumpRequested h.keys
  have hkeys := congrArg (fun keys : KeyDecoder => { keys with dumpRequested := false }) h.keys
  rw [BareSession.perform, BareKeys.takeDumpRequest, hasked]
  exact ⟨_, rfl, h.terminal, hkeys, h.bounded.sameStores rfl rfl rfl rfl⟩

-- One operation: no breach, the answer that the session gives, and what becomes of the session
theorem Represents.perform (allocates : config.Allocates) (reachable : session.Reachable config)
    (h : bare.Represents session) (operation : Operation) :
    ∃ next, bare.perform operation = .ok (next, (session.perform operation).2) ∧
      next.Represents (session.perform operation).1 := by
  have hlineCapacity := reachable.terminal.line_capacity
  have hheldCapacity := reachable.terminal.held_capacity
  obtain ⟨hlineLimit, hheldLimit, -⟩ := allocates
  have hline : session.terminal.line.Fits := by
    unfold ByteRing.Fits
    omega
  have hheld : session.terminal.held.Fits := by
    unfold ByteRing.Fits
    omega
  cases operation with
  | output chunk => exact h.output reachable hline hheld chunk
  | keystrokes input pty => exact h.keystrokes input pty
  | reset => exact ⟨_, rfl, h.reset⟩
  | attachLogs plain raw => exact ⟨_, rfl, h.attachLogs plain raw⟩
  | setForward on =>
      refine ⟨_, rfl, ?_, h.keys, h.bounded⟩
      rw [h.terminal]
      rfl
  | takeResize => exact h.takeResize
  | takeDumpRequest => exact h.takeDumpRequest
  | snapshot =>
      rw [BareSession.perform, h.snapshot hline]
      exact ⟨_, rfl, h⟩
  | dump =>
      rw [BareSession.perform, h.snapshot hline]
      exact ⟨_, rfl, h⟩

theorem Represents.performAll (allocates : config.Allocates) (reachable : session.Reachable config)
    (h : bare.Represents session) (operations : List Operation) :
    ∃ last, bare.performAll operations = .ok (last, (session.performAll operations).2) ∧
      last.Represents (session.performAll operations).1 := by
  induction operations generalizing bare session with
  | nil => exact ⟨bare, rfl, h⟩
  | cons operation rest ih =>
      obtain ⟨next, hperform, hnext⟩ := h.perform allocates reachable operation
      obtain ⟨last, hrest, hlast⟩ := ih (reachable.perform operation) hnext
      refine ⟨last, ?_, hlast⟩
      rw [BareSession.performAll, hperform]
      simp only [hrest, bind, Except.bind]
      rfl

-- Whatever is done with a session, to writers that answer in whatever way, no access misses its
-- cells, no number leaves its range, nothing is divided by zero, and no byte is read for ever:
-- the session answers just as the one whose rings cannot be out of order.
theorem run_unbreached (allocates : config.Allocates) (operations : List Operation) :
    ∃ last, run config operations =
        .ok (last, ((Session.ofConfig config).performAll operations).2) ∧
      last.Bounded config ∧
      last.Represents ((Session.ofConfig config).performAll operations).1 := by
  obtain ⟨bare, hbare, hbegun⟩ := ofConfig_eq allocates
  obtain ⟨last, hrun, hlast⟩ := hbegun.performAll allocates .start operations
  have hreachable : ((Session.ofConfig config).performAll operations).1.Reachable config :=
    Session.Reachable.start.performAll operations
  refine ⟨last, ?_, hlast.bounded_of_reachable hreachable, hlast⟩
  rw [run, hbare]
  exact hrun

-- The smallest stores there are: a line of one byte that is full, a sequence that outgrows its
-- store, a log that breaks down, a window size in the middle, and what is left of all that
theorem run_unbreached_smallest :
    let config : Config := { lineCapacity := 0, escapeCapacity := 0, debugCapacity := 0 }
    let broken : Writer := { script := [.take 1, .fail ⟨.brokenPipe, none⟩] }
    let operations : List Operation :=
      [.attachLogs (some broken) none, .output [0x61, 0x0d, 0x62, 0x63], .output [0x0d, 0x64, 0x0a],
        .output [0x1b, 0x5b, 0x31, 0x31, 0x31, 0x31, 0x31, 0x31, 0x31, 0x31, 0x43, 0x08, 0x1b],
        .keystrokes [0x61, 0x5c, 0x77, 0x30, 0x30] broken, .snapshot]
    (∃ last, run config operations =
        .ok (last, ((Session.ofConfig config).performAll operations).2) ∧
      last.Bounded config ∧
      last.Represents ((Session.ofConfig config).performAll operations).1) ∧
    (run config operations).map (fun reached =>
      (reached.1.terminal.held.size, reached.1.terminal.line.cursor, reached.1.keys.fieldLength)) =
        .ok (1, 0, 2) := by
  intro config broken operations
  have allocates : config.Allocates := ⟨by decide, by decide, by decide⟩
  exact ⟨run_unbreached allocates operations, by decide +kernel⟩

end BareSession

end TerminalRelay
