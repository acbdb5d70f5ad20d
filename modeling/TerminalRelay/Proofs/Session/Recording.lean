import TerminalRelay.Proofs.Keys.Consumed
import TerminalRelay.Proofs.Session.Reachable
import TerminalRelay.Proofs.Terminal.Chunks
import TerminalRelay.Proofs.Terminal.Lines

namespace TerminalRelay

namespace Session

-- What an operation may be while a log of the raw output is to stand for the session: output that
-- is dealt with, keystrokes that complete no window size, and anything that does not start over
def Keeps (session : Session) : Operation → Prop
  | .output chunk => (session.output chunk).error = none
  | .keystrokes input pty =>
    ∀ stroke ∈ session.keys.strokes session.terminal.modes pty input, stroke.requested = none
  | .reset | .attachLogs _ _ => False
  | .setForward _ | .takeResize | .takeDumpRequest | .snapshot | .dump => True

def KeepsAll : Session → List Operation → Prop
  | _, [] => True
  | session, operation :: rest =>
    session.Keeps operation ∧ (session.perform operation).1.KeepsAll rest

end Session

-- The output that an operation brings
def Operation.chunk : Operation → Bytes
  | output chunk => chunk
  | _ => []

namespace Session

-- The session stands where `base` stands after these bytes, and its raw log has got them.
structure Follows (base : Terminal) (bytes : Bytes) (session : Session) : Prop where
  error : (base.interpret bytes).error = none
  twins : session.terminal.Twins (base.interpret bytes).state
  sound : session.terminal.Sound
  settled : session.keys.Settled
  gentle : session.terminal.RawLogGentle
  logged : session.terminal.logged = base.logged.map (· ++ bytes)

variable {base : Terminal} {bytes : Bytes} {session : Session}

theorem Follows.output (follows : Follows base bytes session) (sound : base.Sound) {chunk : Bytes}
    (h : (session.output chunk).error = none) :
    Follows base (bytes ++ chunk) (session.output chunk).state := by
  have hnone : (session.terminal.feed chunk).error = none := h
  have hread := (sound.reads_interpret bytes).sound
  obtain ⟨herror, htwins, -⟩ := ((Terminal.twins_cleared _).trans follows.twins).interpret
    follows.sound.cleared hread chunk
  obtain ⟨-, hgentle, hlogged⟩ := follows.gentle.feed follows.sound chunk
  have happend : base.interpret (bytes ++ chunk) =
      (base.interpret bytes).state.interpret chunk := by
    have hreads : base.interpret bytes = ⟨(base.interpret bytes).state, none⟩ :=
      congrArg (Outcome.mk _) follows.error
    rw [Terminal.interpret_append, hreads]
    rfl
  refine ⟨?_, ?_, follows.sound.feed chunk, follows.settled, hgentle, ?_⟩
  · rw [happend, ← herror]
    exact Terminal.interpret_of_feed hnone
  · rw [happend]
    exact (Terminal.twins_feed _ chunk).trans htwins
  · refine hlogged.trans ?_
    rw [follows.logged, Option.map_map]
    congr 1
    funext before
    exact List.append_assoc before bytes chunk

-- Strokes that ask for no window leave the terminal alone, even its modes.
theorem keystrokes_terminal (settled : session.keys.Settled) (input : Bytes) (pty : Writer)
    (h : session.Keeps (.keystrokes input pty)) :
    (session.keystrokes input pty).state.1.terminal = session.terminal := by
  have hmodes := settled.modes_feed session.terminal.modes pty input
  rw [Keystroke.lastRequested_of_none h] at hmodes
  exact congrArg (fun modes => { session.terminal with modes }) hmodes

-- An operation that brings no output
theorem Follows.aside (follows : Follows base bytes session) {next : Session}
    (htwins : next.terminal.Twins session.terminal) (sound : next.terminal.Sound)
    (settled : next.keys.Settled) (hlog : next.terminal.rawLog = session.terminal.rawLog) :
    Follows base (bytes ++ []) next := by
  rw [List.append_nil]
  refine ⟨follows.error, htwins.trans follows.twins, sound, settled, ?_, ?_⟩
  · intro log hsome
    exact follows.gentle log (hlog.symm.trans hsome)
  · exact (congrArg (Option.map Writer.contents) hlog).trans follows.logged

theorem Follows.perform (follows : Follows base bytes session) (sound : base.Sound)
    {operation : Operation} (h : session.Keeps operation) :
    Follows base (bytes ++ operation.chunk) (session.perform operation).1 := by
  have hsound := follows.sound
  have hsettled := follows.settled
  cases operation with
  | output chunk => exact follows.output sound h
  | keystrokes input pty =>
      have hterminal := keystrokes_terminal hsettled input pty h
      have hkeys := hsettled.feed session.terminal.modes pty input
      refine follows.aside ?_ ?_ hkeys rfl
      · exact hterminal ▸ .refl _
      · exact hsound.congr rfl rfl
  | reset => exact h.elim
  | attachLogs plain raw => exact h.elim
  | setForward on =>
      exact follows.aside ⟨rfl, rfl, rfl, rfl, .refl _, rfl⟩ (hsound.congr rfl rfl) hsettled rfl
  | takeResize =>
      exact follows.aside (.refl _) hsound ⟨hsettled.pending, hsettled.unfinished⟩ rfl
  | takeDumpRequest =>
      exact follows.aside (.refl _) hsound ⟨hsettled.pending, hsettled.unfinished⟩ rfl
  | snapshot => exact follows.aside (.refl _) hsound hsettled rfl
  | dump => exact follows.aside (.refl _) hsound hsettled rfl

theorem Follows.performAll (follows : Follows base bytes session) (sound : base.Sound)
    {operations : List Operation} (h : session.KeepsAll operations) :
    Follows base (bytes ++ operations.flatMap Operation.chunk)
      (session.performAll operations).1 := by
  induction operations generalizing session bytes with
  | nil =>
      rw [List.flatMap_nil, List.append_nil]
      exact follows
  | cons operation rest ih =>
      obtain ⟨hkeeps, hrest⟩ := h
      have hnext := ih (follows.perform sound hkeeps) hrest
      rw [List.flatMap_cons, ← List.append_assoc]
      exact hnext

end Session

end TerminalRelay
