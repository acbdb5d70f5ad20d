import TerminalRelay.Proofs.Keys.Consumed
import TerminalRelay.Proofs.Session.Sides

namespace TerminalRelay

-- A window that can be set: four digits, and not all zero, for either number
def WindowSize.Usable (size : WindowSize) : Prop :=
  (1 ≤ size.rows ∧ size.rows ≤ 9999) ∧ 1 ≤ size.cols ∧ size.cols ≤ 9999

namespace Keystroke

variable {strokes : List Keystroke} {size : WindowSize}

theorem usable_of_requested {field : Bytes} (hlength : field.length = 8)
    (h : (windowSize field).requested = some size) : size.Usable := by
  obtain ⟨⟨hdigits, hrows, hcols⟩, hsize⟩ := Option.ite_none_right_eq_some.mp h
  rw [← List.take_append_drop 4 field, List.all_append, Bool.and_eq_true] at hdigits
  have hrows' := Byte.decimal_lt hdigits.1
  have hcols' := Byte.decimal_lt hdigits.2
  rw [List.length_take, hlength] at hrows'
  rw [List.length_drop, hlength] at hcols'
  rw [← Option.some.inj hsize]
  exact ⟨⟨hrows, Nat.le_of_lt_succ hrows'⟩, hcols, Nat.le_of_lt_succ hcols'⟩

theorem exists_of_lastRequested (h : lastRequested none strokes = some size) :
    ∃ field, windowSize field ∈ strokes ∧ (windowSize field).requested = some size := by
  rw [lastRequested, Option.or_none] at h
  obtain ⟨stroke, hmem, hrequested⟩ := List.mem_filterMap.mp (List.mem_of_getLast? h)
  cases stroke with
  | windowSize field => exact ⟨field, hmem, hrequested⟩
  | _ => exact absurd hrequested (by simp [requested])

-- Whether a window was asked for lately is all that the earlier strokes can add to.
theorem lastRequested_later (earlier later : List Keystroke) : lastRequested none later =
    if later.any (·.requested.isSome) then lastRequested none (earlier ++ later) else none := by
  split
  · rename_i hany
    obtain ⟨stroke, hmem, hsome⟩ := List.any_eq_true.mp hany
    obtain ⟨size, hsize⟩ := Option.isSome_iff_exists.mp hsome
    have hne : later.filterMap requested ≠ [] :=
      List.ne_nil_of_mem (List.mem_filterMap.mpr ⟨stroke, hmem, hsize⟩)
    rw [lastRequested_append, lastRequested, lastRequested, List.getLast?_eq_some_getLast hne]
    rfl
  · rename_i hnone
    apply lastRequested_of_none
    intro stroke hmem
    by_contra hsome
    exact hnone (List.any_eq_true.mpr ⟨stroke, hmem, Option.isSome_iff_ne_none.mpr hsome⟩)

end Keystroke

-- The bytes of the keystrokes that a session has read since it was new or reset, and those of them
-- that it had read when a resize was last taken
structure Typed where
  read : Bytes := []
  taken : Bytes := []

namespace Typed

def perform (typed : Typed) (session : Session) : Operation → Typed
  | .keystrokes input pty => { typed with
      read := typed.read ++ (session.keys.begun session.terminal.modes pty).consumed input }
  | .takeResize => { typed with taken := typed.read }
  | .reset | .attachLogs _ _ => {}
  | .output _ | .setForward _ | .takeDumpRequest | .snapshot | .dump => typed

def performAll (typed : Typed) (session : Session) : List Operation → Typed
  | [] => typed
  | operation :: rest =>
    (typed.perform session operation).performAll (session.perform operation).1 rest

-- The strokes that are complete, and those of them that were when a resize was last taken
def strokes (typed : Typed) : List Keystroke := (keystrokes typed.read).1

def earlier (typed : Typed) : List Keystroke := (keystrokes typed.taken).1

end Typed

namespace Session

open Keystroke (lastRequested)

-- The session is as these keystrokes leave it, as far as windows go.
structure Tracks (session : Session) (typed : Typed) : Prop where
  parsed : ∀ rest, TerminalRelay.keystrokes (typed.read ++ rest) = Keystroke.before typed.strokes
    (TerminalRelay.keystrokes (session.keys.phase.leftover ++ rest))
  window : session.terminal.modes.window = lastRequested none typed.strokes
  resize : ∃ later, typed.strokes = typed.earlier ++ later ∧
    session.keys.resize = lastRequested none later

variable {config : Config} {session : Session} {typed : Typed}

theorem tracks_nothing (hphase : session.keys.phase = .idle)
    (hwindow : session.terminal.modes.window = none) (hresize : session.keys.resize = none) :
    session.Tracks {} := by
  have hnone : ({} : Typed).strokes = [] := congrArg Prod.fst keystrokes_nil
  refine ⟨?_, ?_, [], (List.append_nil _).symm, hresize⟩
  · intro rest
    rw [hphase, hnone]
    rfl
  · rw [hwindow, hnone]
    rfl

theorem Tracks.keystrokes (tracks : session.Tracks typed) (h : session.AtRest) (input : Bytes)
    (pty : Writer) : (session.keystrokes input pty).state.1.Tracks
      (typed.perform session (.keystrokes input pty)) := by
  obtain ⟨hunfinished, hbatch, hmodes, hpending, -, -⟩ :=
    h.keys.understands_feed session.terminal.modes pty input
  obtain ⟨hparsed, hwindow, later, hlater, hresize⟩ := tracks
  generalize hread : (session.keys.begun session.terminal.modes pty).consumed input = read at hbatch
  generalize session.keys.strokes session.terminal.modes pty input = strokes
    at hbatch hmodes hpending
  have hparsed' : ∀ rest, TerminalRelay.keystrokes (typed.read ++ read ++ rest) =
      Keystroke.before (typed.strokes ++ strokes) (TerminalRelay.keystrokes
        ((session.keystrokes input pty).state.1.keys.phase.leftover ++ rest)) := by
    intro rest
    rw [List.append_assoc, hparsed, Keystroke.before_append]
    exact congrArg _ (hbatch rest)
  -- at the end of what was read, the stroke begun is all that is left
  have hstrokes : (typed.perform session (.keystrokes input pty)).strokes =
      typed.strokes ++ strokes := by
    have hend := hparsed' []
    rw [List.append_nil, List.append_nil] at hend
    rw [Typed.strokes, Typed.perform, hread, hend]
    exact (congrArg (fun later => (Keystroke.before (typed.strokes ++ strokes) later).1)
      (keystrokes_leftover hunfinished)).trans (List.append_nil _)
  refine ⟨?_, ?_, later ++ strokes, ?_, ?_⟩
  · rw [hstrokes, Typed.perform, hread]
    exact hparsed'
  · rw [hstrokes, Keystroke.lastRequested_append, ← hwindow]
    exact congrArg Modes.window hmodes
  · rw [hstrokes, hlater, List.append_assoc]
    rfl
  · rw [Keystroke.lastRequested_append, ← hresize]
    exact hpending

theorem Tracks.perform (tracks : session.Tracks typed) (h : session.AtRest)
    (operation : Operation) :
    (session.perform operation).1.Tracks (typed.perform session operation) := by
  cases operation with
  | output chunk =>
      exact ⟨tracks.parsed, (h.window_output chunk).trans tracks.window, tracks.resize⟩
  | keystrokes input pty => exact tracks.keystrokes h input pty
  | reset => exact tracks_nothing rfl rfl rfl
  | attachLogs plain raw => exact tracks_nothing rfl rfl rfl
  | setForward on => exact ⟨tracks.parsed, tracks.window, tracks.resize⟩
  | takeResize => exact ⟨tracks.parsed, tracks.window, [], (List.append_nil _).symm, rfl⟩
  | takeDumpRequest => exact ⟨tracks.parsed, tracks.window, tracks.resize⟩
  | snapshot => exact tracks
  | dump => exact tracks

theorem Tracks.performAll (tracks : session.Tracks typed) (h : session.Reachable config)
    (operations : List Operation) :
    (session.performAll operations).1.Tracks (typed.performAll session operations) := by
  induction operations generalizing session typed with
  | nil => exact tracks
  | cons operation rest ih => exact ih (tracks.perform h.atRest operation) (h.perform operation)

theorem Tracks.usable (tracks : session.Tracks typed) {size : WindowSize}
    (h : session.terminal.modes.window = some size) : size.Usable := by
  obtain ⟨field, hmem, hrequested⟩ := Keystroke.exists_of_lastRequested (tracks.window.symm.trans h)
  exact Keystroke.usable_of_requested (keystrokes_field hmem) hrequested

theorem Tracks.takeResize (tracks : session.Tracks typed) : ∃ later,
    typed.strokes = typed.earlier ++ later ∧ session.takeResize.1 =
      if later.any (·.requested.isSome) then session.terminal.modes.window else none := by
  obtain ⟨later, hlater, hresize⟩ := tracks.resize
  refine ⟨later, hlater, hresize.trans ?_⟩
  rw [Keystroke.lastRequested_later typed.earlier later, ← hlater, tracks.window]

-- Keystrokes that complete no valid window size leave the window and the resize to be taken.
theorem AtRest.keystrokes_of_none (h : session.AtRest) {input : Bytes} {pty : Writer}
    (hnone : ∀ stroke ∈ session.keys.strokes session.terminal.modes pty input,
      stroke.requested = none) :
    let reached := (session.keystrokes input pty).state.1
    reached.terminal.modes.window = session.terminal.modes.window ∧
      reached.keys.resize = session.keys.resize := by
  obtain ⟨-, -, hmodes, hresize, -, -⟩ :=
    h.keys.understands_feed session.terminal.modes pty input
  rw [Keystroke.lastRequested_of_none hnone] at hmodes hresize
  exact ⟨congrArg Modes.window hmodes, hresize⟩

-- The window is the last one that was validly asked for since the session began, and it can always
-- be set. It is there to be taken if it was asked for since the last time. Nothing else that is
-- typed counts, and no output does.
theorem performAll_resizes (config : Config) (operations : List Operation) :
    let session := ((ofConfig config).performAll operations).1
    let typed := ({} : Typed).performAll (ofConfig config) operations
    session.terminal.modes.window = lastRequested none typed.strokes ∧
    (∀ size, session.terminal.modes.window = some size → size.Usable) ∧
    (∃ later, typed.strokes = typed.earlier ++ later ∧ session.takeResize.1 =
      if later.any (·.requested.isSome) then session.terminal.modes.window else none) ∧
    (∀ (input : Bytes) (pty : Writer),
      (∀ stroke ∈ session.keys.strokes session.terminal.modes pty input,
        stroke.requested = none) →
      let reached := (session.keystrokes input pty).state.1
      reached.terminal.modes.window = session.terminal.modes.window ∧
        reached.keys.resize = session.keys.resize) ∧
    ∀ chunk : Bytes,
      let reached := (session.output chunk).state
      reached.terminal.modes.window = session.terminal.modes.window ∧
        reached.keys.resize = session.keys.resize := by
  intro session typed
  have hbegun : (ofConfig config).Reachable config := .start
  have hreached := (hbegun.performAll operations).atRest
  have tracks : session.Tracks typed :=
    (tracks_nothing rfl rfl rfl).performAll hbegun operations
  exact ⟨tracks.window, fun size => tracks.usable, tracks.takeResize,
    fun input pty => hreached.keystrokes_of_none,
    fun chunk => ⟨hreached.window_output chunk, rfl⟩⟩

-- A window size in two parts, with output in between; and then one with no rows
theorem performAll_resizes_cut :
    let config : Config := { lineCapacity := 8 }
    let operations : List Operation := [.keystrokes [0x5c, 0x77, 0x30, 0x30] {}, .output [0x61],
      .keystrokes [0x32, 0x34, 0x30, 0x30, 0x38, 0x30] {}]
    let session := ((ofConfig config).performAll operations).1
    let field : Bytes := [0x30, 0x30, 0x30, 0x30, 0x30, 0x30, 0x38, 0x30]
    let reached := (session.keystrokes (0x5c :: 0x77 :: field) {}).state.1
    session.terminal.modes.window = some ⟨24, 80⟩ ∧ (⟨24, 80⟩ : WindowSize).Usable ∧
    session.takeResize.1 = some ⟨24, 80⟩ ∧
    reached.terminal.modes.window = session.terminal.modes.window ∧
      reached.keys.resize = session.keys.resize := by
  intro config operations session field reached
  have hwindow : session.terminal.modes.window = some ⟨24, 80⟩ := by decide +kernel
  have hread : session.keys.phase.leftover ++
      (session.keys.begun session.terminal.modes {}).consumed (0x5c :: 0x77 :: field) =
        0x5c :: 0x77 :: (field ++ []) := by decide +kernel
  have hstrokes : session.keys.strokes session.terminal.modes {} (0x5c :: 0x77 :: field) =
      [.windowSize field] := by
    have hfield : TerminalRelay.keystrokes (0x5c :: 0x77 :: (field ++ [])) = _ :=
      keystrokes_windowSize rfl []
    rw [keystrokes_nil] at hfield
    exact congrArg Prod.fst ((congrArg TerminalRelay.keystrokes hread).trans hfield)
  have hnone : ∀ stroke ∈ session.keys.strokes session.terminal.modes {} (0x5c :: 0x77 :: field),
      stroke.requested = none := by
    rw [hstrokes]
    decide +kernel
  obtain ⟨-, husable, -, hkeystrokes, -⟩ := performAll_resizes config operations
  obtain ⟨hsame, hpending⟩ := hkeystrokes _ {} hnone
  exact ⟨hwindow, husable _ hwindow, by decide +kernel, hsame, hpending⟩

end Session

end TerminalRelay
