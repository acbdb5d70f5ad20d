import TerminalRelay.Proofs.Keys.Consumed
import TerminalRelay.Proofs.Session.Reachable
import TerminalRelay.Proofs.Terminal.Modes

namespace TerminalRelay

namespace Outcome

variable {σ τ : Type}

theorem andThen_map (outcome : Outcome σ) (f : σ → τ) (next : σ → Outcome σ) (next' : τ → Outcome τ)
    (h : ∀ state, next' (f state) = (next state).map f) :
    (outcome.map f).andThen next' = (outcome.andThen next).map f := by
  obtain ⟨state, error⟩ := outcome
  cases error with
  | none => exact h state
  | some error => rfl

end Outcome

namespace Typing

-- The screen that is shown is none of a decoder's business.
def onScreen (alternate : Bool) (typing : Typing) : Typing :=
  { typing with modes := { typing.modes with altScreen := alternate } }

variable (alternate : Bool) (typing : Typing)

theorem flush_onScreen :
    (typing.onScreen alternate).flush = typing.flush.map (onScreen alternate) := rfl

theorem queue_onScreen (bytes : Bytes) :
    (typing.onScreen alternate).queue bytes = (typing.queue bytes).map (onScreen alternate) := by
  have hpending : (typing.onScreen alternate).decoder.pending = typing.decoder.pending := rfl
  unfold queue
  rw [hpending]
  split
  · rfl
  · rw [flush_onScreen]
    exact Outcome.andThen_map _ _ _ _ fun _ => rfl

theorem obey_onScreen (directive : Directive) :
    (typing.onScreen alternate).obey directive =
      (typing.obey directive).map (onScreen alternate) := by
  cases directive with
  | newline => exact queue_onScreen alternate typing _
  | backslash => exact queue_onScreen alternate typing _
  | cursor key => exact queue_onScreen alternate typing _
  | dump => rfl
  | keepAlive => rfl
  | windowSize => rfl

theorem finishWindowSize_onScreen (field : Bytes) :
    (typing.onScreen alternate).finishWindowSize field =
      (typing.finishWindowSize field).onScreen alternate := by
  unfold finishWindowSize
  split <;> rfl

theorem step_onScreen (byte : UInt8) :
    (typing.onScreen alternate).step byte = (typing.step byte).map (onScreen alternate) := by
  have hdecoder : (typing.onScreen alternate).decoder = typing.decoder := rfl
  have henter (phase : KeyPhase) : (typing.onScreen alternate).enter phase =
      (typing.enter phase).onScreen alternate := rfl
  unfold step
  rw [hdecoder]
  cases typing.decoder.phase with
  | idle =>
      dsimp only
      split
      · rfl
      · exact queue_onScreen alternate typing [byte]
  | directive =>
      dsimp only
      rw [henter]
      split
      · exact obey_onScreen alternate _ _
      · rfl
  | windowSize field =>
      dsimp only
      split
      · rfl
      · rw [henter, finishWindowSize_onScreen]
        rfl

theorem steps_onScreen (input : Bytes) :
    (typing.onScreen alternate).steps input = (typing.steps input).map (onScreen alternate) := by
  induction input generalizing typing with
  | nil => rfl
  | cons byte rest ih =>
      rw [steps_cons, steps_cons, step_onScreen]
      exact Outcome.andThen_map _ _ _ _ ih

end Typing

namespace KeyDecoder

theorem feed_onScreen (decoder : KeyDecoder) (modes : Modes) (pty : Writer) (input : Bytes)
    (alternate : Bool) : decoder.feed { modes with altScreen := alternate } pty input =
      (decoder.feed modes pty input).map (Typing.onScreen alternate) := by
  have hsteps := Typing.steps_onScreen alternate
    ⟨{ decoder with notices := #[] }, modes, pty⟩ input
  unfold feed
  rw [← Outcome.andThen_map _ _ _ _ fun state => Typing.flush_onScreen alternate state, ← hsteps]
  rfl

-- Keystrokes set the window, if anything.
theorem Settled.frame_feed {decoder : KeyDecoder} (settled : decoder.Settled) (modes : Modes)
    (pty : Writer) (input : Bytes) :
    (decoder.feed modes pty input).state.modes =
      { modes with window := (decoder.feed modes pty input).state.modes.window } := by
  rw [settled.modes_feed]

end KeyDecoder

-- A call on one side of a session: what the child prints, or what the viewer types
inductive Call where
  | output (chunk : Bytes)
  | keystrokes (input : Bytes)
deriving DecidableEq, Repr

namespace Call

def chunk? : Call → Option Bytes
  | output chunk => some chunk
  | keystrokes _ => none

def input? : Call → Option Bytes
  | output _ => none
  | keystrokes input => some input

def chunks (calls : List Call) : List Bytes :=
  calls.filterMap chunk?

def inputs (calls : List Call) : List Bytes :=
  calls.filterMap input?

end Call

namespace Terminal

-- Chunks fed one after the other, whether they succeed or fail: what each came to, and the end
def feedEach (t : Terminal) : List Bytes → List (Outcome Terminal) × Terminal
  | [] => ([], t)
  | chunk :: rest =>
    let (outcomes, last) := (t.feed chunk).state.feedEach rest
    (t.feed chunk :: outcomes, last)

-- No chunk leaves the cursor keys in another mode than it found them in.
def CursorKeysStay : Terminal → List Bytes → Prop
  | _, [] => True
  | t, chunk :: rest =>
    (t.feed chunk).state.modes.appCursor = t.modes.appCursor ∧
      (t.feed chunk).state.CursorKeysStay rest

end Terminal

namespace KeyDecoder

-- What a batch comes to, but for the modes
def batch (decoder : KeyDecoder) (modes : Modes) (pty : Writer) (input : Bytes) :
    Outcome (KeyDecoder × Writer) :=
  (decoder.feed modes pty input).map fun typing => (typing.decoder, typing.pty)

-- Batches one after the other under the same modes, whether they succeed or fail
def feedEach (decoder : KeyDecoder) (modes : Modes) (pty : Writer) :
    List Bytes → List (Outcome (KeyDecoder × Writer)) × KeyDecoder × Writer
  | [] => ([], decoder, pty)
  | input :: rest =>
    let outcome := decoder.batch modes pty input
    let (outcomes, last) := outcome.state.1.feedEach modes outcome.state.2 rest
    (outcome :: outcomes, last)

-- No batch asks for another window than the one there is.
def WindowStays (modes : Modes) : KeyDecoder → Writer → List Bytes → Prop
  | _, _, [] => True
  | decoder, pty, input :: rest =>
    let typed := (decoder.feed modes pty input).state
    typed.modes.window = modes.window ∧ WindowStays modes typed.decoder typed.pty rest

theorem batch_onScreen (decoder : KeyDecoder) (modes : Modes) (pty : Writer) (input : Bytes)
    (alternate : Bool) : decoder.batch { modes with altScreen := alternate } pty input =
      decoder.batch modes pty input := by
  unfold batch
  rw [feed_onScreen]
  rfl

theorem feedEach_onScreen (decoder : KeyDecoder) (modes : Modes) (pty : Writer)
    (inputs : List Bytes) (alternate : Bool) :
    decoder.feedEach { modes with altScreen := alternate } pty inputs =
      decoder.feedEach modes pty inputs := by
  induction inputs generalizing decoder pty with
  | nil => rfl
  | cons input rest ih => simp only [feedEach, batch_onScreen, ih]

theorem windowStays_onScreen (decoder : KeyDecoder) (modes : Modes) (pty : Writer)
    (inputs : List Bytes) (alternate : Bool) :
    WindowStays { modes with altScreen := alternate } decoder pty inputs ↔
      WindowStays modes decoder pty inputs := by
  induction inputs generalizing decoder pty with
  | nil => rfl
  | cons input rest ih =>
      simp only [WindowStays, feed_onScreen, Outcome.map, Typing.onScreen]
      exact and_congr Iff.rfl (ih _ _)

end KeyDecoder

namespace Session

-- The session and the pty after a call, whether it succeeded or failed
def call (session : Session) (pty : Writer) : Call → Session × Writer
  | .output chunk => ((session.output chunk).state, pty)
  | .keystrokes input => (session.keystrokes input pty).state

-- What calls come to on either side, one by one, and where they lead
structure Course where
  outputs : List (Outcome Terminal)
  inputs : List (Outcome (KeyDecoder × Writer))
  session : Session
  pty : Writer

-- The calls of both sides in the order they come in, to one pty
def follow (session : Session) (pty : Writer) : List Call → Course
  | [] => ⟨[], [], session, pty⟩
  | .output chunk :: rest =>
    let outcome := session.output chunk
    let course := outcome.state.follow pty rest
    { course with outputs := outcome.map Session.terminal :: course.outputs }
  | .keystrokes input :: rest =>
    let outcome := session.keystrokes input pty
    let course := outcome.state.1.follow outcome.state.2 rest
    { course with
      inputs := outcome.map (fun reached => (reached.1.keys, reached.2)) :: course.inputs }

-- The two modes through which one side reads what the other wrote are the same after every call.
def Steady : Session → Writer → List Call → Prop
  | _, _, [] => True
  | session, pty, call :: rest =>
    let next := session.call pty call
    next.1.terminal.modes.appCursor = session.terminal.modes.appCursor ∧
      next.1.terminal.modes.window = session.terminal.modes.window ∧ next.1.Steady next.2 rest

-- Both sides of a session in the states that calls leave behind
structure AtRest (session : Session) : Prop where
  terminal : session.terminal.Sound
  keys : session.keys.Settled

theorem Reachable.atRest {config : Config} {session : Session} (h : session.Reachable config) :
    session.AtRest :=
  ⟨h.terminal.sound, h.keys.settled⟩

variable {session : Session}

theorem AtRest.output (atRest : session.AtRest) (chunk : Bytes) :
    (session.output chunk).state.AtRest :=
  ⟨atRest.terminal.feed chunk, atRest.keys⟩

theorem AtRest.keystrokes (atRest : session.AtRest) (input : Bytes) (pty : Writer) :
    (session.keystrokes input pty).state.1.AtRest :=
  ⟨atRest.terminal.congr rfl rfl, atRest.keys.feed session.terminal.modes pty input⟩

theorem AtRest.window_output (atRest : session.AtRest) (chunk : Bytes) :
    (session.output chunk).state.terminal.modes.window = session.terminal.modes.window :=
  atRest.terminal.window_feed chunk

theorem AtRest.terminal_keystrokes (atRest : session.AtRest) (input : Bytes) (pty : Writer) :
    (session.keystrokes input pty).state.1.terminal =
      { session.terminal with modes := { session.terminal.modes with
          window := (session.keystrokes input pty).state.1.terminal.modes.window } } := by
  have hmodes := atRest.keys.frame_feed session.terminal.modes pty input
  exact congrArg (fun modes => { session.terminal with modes }) hmodes

-- Keystrokes that leave the window as it was leave the whole terminal as it was.
theorem AtRest.terminal_of_window (atRest : session.AtRest) {input : Bytes} {pty : Writer}
    (hwindow : (session.keystrokes input pty).state.1.terminal.modes.window =
      session.terminal.modes.window) :
    (session.keystrokes input pty).state.1.terminal = session.terminal := by
  rw [atRest.terminal_keystrokes input pty, hwindow]

-- Output that leaves the cursor keys as they were changes no mode that keystrokes read.
theorem AtRest.modes_of_appCursor (atRest : session.AtRest) {chunk : Bytes}
    (hcursor : (session.output chunk).state.terminal.modes.appCursor =
      session.terminal.modes.appCursor) :
    (session.output chunk).state.terminal.modes =
      { session.terminal.modes with
        altScreen := (session.output chunk).state.terminal.modes.altScreen } := by
  have hwindow := atRest.window_output chunk
  generalize (session.output chunk).state.terminal.modes = modes at hcursor hwindow ⊢
  obtain ⟨altScreen, appCursor, window⟩ := modes
  dsimp only at hcursor hwindow
  rw [hcursor, hwindow]

-- Calls are steady as soon as each side would be on its own.
theorem AtRest.steady_iff (atRest : session.AtRest) (pty : Writer) (calls : List Call) :
    session.Steady pty calls ↔
      session.terminal.CursorKeysStay (Call.chunks calls) ∧
        session.keys.WindowStays session.terminal.modes pty (Call.inputs calls) := by
  induction calls generalizing session pty with
  | nil => exact ⟨fun _ => ⟨trivial, trivial⟩, fun _ => trivial⟩
  | cons call rest ih =>
      cases call with
      | output chunk =>
          have hnext := ih (atRest.output chunk) pty
          have hwindow := atRest.window_output chunk
          have hiff : ∀ hcursor : (session.output chunk).state.terminal.modes.appCursor =
              session.terminal.modes.appCursor,
              (session.output chunk).state.Steady pty rest ↔
                (session.output chunk).state.terminal.CursorKeysStay (Call.chunks rest) ∧
                  session.keys.WindowStays session.terminal.modes pty (Call.inputs rest) := by
            intro hcursor
            rw [hnext, atRest.modes_of_appCursor hcursor]
            exact and_congr Iff.rfl (KeyDecoder.windowStays_onScreen _ _ _ _ _)
          constructor
          · rintro ⟨hcursor, -, hrest⟩
            obtain ⟨hchunks, hinputs⟩ := (hiff hcursor).mp hrest
            exact ⟨⟨hcursor, hchunks⟩, hinputs⟩
          · rintro ⟨⟨hcursor, hchunks⟩, hinputs⟩
            exact ⟨hcursor, hwindow, (hiff hcursor).mpr ⟨hchunks, hinputs⟩⟩
      | keystrokes input =>
          have hnext := ih (atRest.keystrokes input pty) (session.keystrokes input pty).state.2
          have hcursor := congrArg (fun t => t.modes.appCursor)
            (atRest.terminal_keystrokes input pty)
          constructor
          · rintro ⟨-, hwindow, hrest⟩
            rw [Session.call, hnext, atRest.terminal_of_window hwindow] at hrest
            exact ⟨hrest.1, hwindow, hrest.2⟩
          · rintro ⟨hchunks, hwindow, hinputs⟩
            refine ⟨hcursor, hwindow, ?_⟩
            rw [Session.call, hnext, atRest.terminal_of_window hwindow]
            exact ⟨hchunks, hinputs⟩

-- Each side comes to what it would have come to without the other.
theorem AtRest.follow_eq (atRest : session.AtRest) {pty : Writer} {calls : List Call}
    (steady : session.Steady pty calls) :
    let printed := session.terminal.feedEach (Call.chunks calls)
    let typed := session.keys.feedEach session.terminal.modes pty (Call.inputs calls)
    session.follow pty calls = ⟨printed.1, typed.1, ⟨printed.2, typed.2.1⟩, typed.2.2⟩ := by
  induction calls generalizing session pty with
  | nil => rfl
  | cons call rest ih =>
      cases call with
      | output chunk =>
          obtain ⟨hcursor, -, hrest⟩ := steady
          have hnext := ih (atRest.output chunk) hrest
          rw [atRest.modes_of_appCursor hcursor, KeyDecoder.feedEach_onScreen] at hnext
          exact congrArg (fun course : Course => { course with
            outputs := (session.output chunk).map Session.terminal :: course.outputs }) hnext
      | keystrokes input =>
          obtain ⟨-, hwindow, hrest⟩ := steady
          have hnext := ih (atRest.keystrokes input pty) hrest
          rw [atRest.terminal_of_window hwindow] at hnext
          exact congrArg (fun course : Course => { course with
            inputs := (session.keystrokes input pty).map
              (fun reached : Session × Writer => (reached.1.keys, reached.2)) ::
                course.inputs }) hnext

-- One call on each side, in either order
theorem AtRest.swap (atRest : session.AtRest) {chunk input : Bytes} {pty : Writer}
    (hcursor : (session.output chunk).state.terminal.modes.appCursor =
      session.terminal.modes.appCursor)
    (hwindow : (session.keystrokes input pty).state.1.terminal.modes.window =
      session.terminal.modes.window) :
    let typedLast := (session.output chunk).state.keystrokes input pty
    let printedLast := (session.keystrokes input pty).state.1.output chunk
    printedLast.error = (session.output chunk).error ∧
    typedLast.error = (session.keystrokes input pty).error ∧
    typedLast.state = (printedLast.state, (session.keystrokes input pty).state.2) := by
  intro typedLast printedLast
  have hterminal := atRest.terminal_of_window hwindow
  have hprinted : printedLast = (session.output chunk).map fun next =>
      { next with keys := (session.keystrokes input pty).state.1.keys } := by
    have hcall : printedLast = (session.keystrokes input pty).state.1.output chunk := rfl
    rw [hcall, Session.output, hterminal]
    rfl
  -- the keys are read under modes that differ in the screen alone
  have htyped : session.keys.feed (session.output chunk).state.terminal.modes pty input =
      (session.keys.feed session.terminal.modes pty input).map
        (Typing.onScreen (session.output chunk).state.terminal.modes.altScreen) := by
    rw [atRest.modes_of_appCursor hcursor]
    exact KeyDecoder.feed_onScreen _ _ _ _ _
  have hmodes : (session.keys.feed session.terminal.modes pty input).state.modes =
      session.terminal.modes := congrArg Terminal.modes hterminal
  have hback : { session.terminal.modes with
      altScreen := (session.output chunk).state.terminal.modes.altScreen } =
        (session.output chunk).state.terminal.modes := (atRest.modes_of_appCursor hcursor).symm
  have hcall : typedLast =
      (session.keys.feed (session.output chunk).state.terminal.modes pty input).map fun typing =>
        (⟨{ (session.output chunk).state.terminal with modes := typing.modes }, typing.decoder⟩,
          typing.pty) := rfl
  rw [hprinted, hcall, htyped]
  refine ⟨rfl, rfl, ?_⟩
  simp only [Outcome.map, Typing.onScreen, hmodes, hback]
  rfl

variable {config : Config}

-- Output and keystrokes leave each other's side alone but for the mode of the cursor keys and the
-- window, and as long as those two stay as they are, the order of the calls makes no difference.
theorem sides_commute (h : session.Reachable config) :
    (∀ chunk : Bytes,
      (session.output chunk).state.terminal.modes.window = session.terminal.modes.window ∧
      (session.output chunk).state.keys = session.keys) ∧
    (∀ (input : Bytes) (pty : Writer), ∃ window,
      (session.keystrokes input pty).state.1.terminal =
        { session.terminal with modes := { session.terminal.modes with window } }) ∧
    (∀ (chunk input : Bytes) (pty : Writer),
      (session.output chunk).state.terminal.modes.appCursor = session.terminal.modes.appCursor →
      (session.keystrokes input pty).state.1.terminal.modes.window =
        session.terminal.modes.window →
      let typedLast := (session.output chunk).state.keystrokes input pty
      let printedLast := (session.keystrokes input pty).state.1.output chunk
      printedLast.error = (session.output chunk).error ∧
      typedLast.error = (session.keystrokes input pty).error ∧
      typedLast.state = (printedLast.state, (session.keystrokes input pty).state.2)) ∧
    ∀ (pty : Writer) (left right : List Call), Call.chunks left = Call.chunks right →
      Call.inputs left = Call.inputs right → session.Steady pty left →
      session.Steady pty right ∧ session.follow pty left = session.follow pty right := by
  have atRest := h.atRest
  refine ⟨?_, ?_, ?_, ?_⟩
  · intro chunk
    exact ⟨atRest.window_output chunk, rfl⟩
  · intro input pty
    exact ⟨_, atRest.terminal_keystrokes input pty⟩
  · intro chunk input pty hcursor hwindow
    exact atRest.swap hcursor hwindow
  · intro pty left right hchunks hinputs steady
    have steady' : session.Steady pty right := by
      rw [atRest.steady_iff] at steady ⊢
      rwa [← hchunks, ← hinputs]
    refine ⟨steady', ?_⟩
    rw [atRest.follow_eq steady, atRest.follow_eq steady', hchunks, hinputs]

-- A switch of screens and a cursor key, each cut in two, with the parts of one between the parts of
-- the other or behind them, to a pty that breaks down in the middle of the key
theorem sides_commute_cut :
    let session := Session.ofConfig { lineCapacity := 8 }
    let pty : Writer := { script := [.take 2, .fail ⟨.brokenPipe, none⟩] }
    let left : List Call := [.output [0x61, 0x1b, 0x5b], .keystrokes [0x5c],
      .output [0x3f, 0x34, 0x37, 0x68], .keystrokes [0x5e]]
    let right : List Call := [.output [0x61, 0x1b, 0x5b], .output [0x3f, 0x34, 0x37, 0x68],
      .keystrokes [0x5c], .keystrokes [0x5e]]
    session.follow pty left = session.follow pty right ∧
      (session.follow pty left).session.terminal.modes.altScreen = true ∧
      (session.follow pty left).pty.contents = [0x1b, 0x5b] := by
  intro session pty left right
  have steady : session.Steady pty left := by
    refine ⟨?_, ?_, ?_, ?_, ?_, ?_, ?_, ?_, trivial⟩ <;> decide +kernel
  have reachable : session.Reachable { lineCapacity := 8 } := .start
  obtain ⟨-, -, -, hcalls⟩ := sides_commute reachable
  exact ⟨(hcalls pty left right rfl rfl steady).2, by decide +kernel, by decide +kernel⟩

end Session

end TerminalRelay
