import TerminalRelay.Proofs.Terminal.RawLog
import Mathlib.Data.List.Forall2

namespace TerminalRelay.Terminal

variable {t u : Terminal} {byte : UInt8} {chunk : Bytes}

-- An error that tells of the plain log
def PlainLogFailed (outcome : Outcome Terminal) : Prop :=
  ∃ error, outcome.error = some error ∧ error.target? = some .plainLog

def withoutPlainLog (t : Terminal) : Terminal :=
  { t with plainLog := none }

theorem Sound.withoutPlainLog (sound : t.Sound) : t.withoutPlainLog.Sound := sound.congr rfl rfl

-- A line that was written is ended as it is where there is no log.
theorem endLine_withoutPlainLog (h : t.endLine.error = none) :
    t.withoutPlainLog.endLine = t.endLine.map Terminal.withoutPlainLog := by
  have hbare : t.withoutPlainLog.endLine =
    ⟨{ t.withoutPlainLog with line := (t.line.moveTo t.line.size).clearOnward }, none⟩ := rfl
  have hends := endsAs_endLine t
  rw [hbare]
  generalize t.endLine = outcome at hends h ⊢
  cases hends with
  | unlogged hlog => rfl
  | logged hlog hdelivered => rfl
  | refused hlog hdelivered => exact absurd h (by simp)

theorem edit_withoutPlainLog {edit : Edit} (h : ¬ PlainLogFailed (t.edit edit)) :
    t.withoutPlainLog.edit edit = (t.edit edit).map Terminal.withoutPlainLog := by
  by_cases hedit : edit = .endLine
  · subst hedit
    refine endLine_withoutPlainLog ?_
    cases herror : t.endLine.error with
    | none => rfl
    | some error => exact absurd ⟨error, herror, blames_endLine herror⟩ h
  · exact edit_setPlainLog t hedit none

theorem Sound.step_withoutPlainLog (sound : t.Sound) (byte : UInt8)
    (h : ¬ PlainLogFailed (t.step byte)) :
    (t.withoutPlainLog.step byte).error = (t.step byte).error ∧
    (t.withoutPlainLog.step byte).state.Twins (t.step byte).state.withoutPlainLog := by
  have hstep := sound.settles byte
  have hstep' : Settles t.withoutPlainLog (t.reader.read t.held.capacity byte)
    (t.withoutPlainLog.step byte) := sound.withoutPlainLog.settles byte
  rw [PlainLogFailed, hstep.error] at h
  have hpage := hstep'.page
  have herror := hstep'.error
  rw [edit_withoutPlainLog h] at hpage herror
  refine ⟨herror.trans hstep.error.symm, hstep'.capacity.trans hstep.capacity.symm,
    hstep'.reader.trans hstep.reader.symm, hstep'.unhandled.trans hstep.unhandled.symm,
    hpage.modes.trans hstep.page.modes.symm, hpage.line.trans hstep.page.line.symm,
    hpage.plainLog⟩

-- Where the plain log does not break it off, a chunk is read as it is where there is none.
theorem Sound.interpret_withoutPlainLog (sound : t.Sound) (sound' : u.Sound)
    (twins : u.Twins t.withoutPlainLog) (h : ¬ PlainLogFailed (t.interpret chunk)) :
    (u.interpret chunk).error = (t.interpret chunk).error ∧
    (u.interpret chunk).state.Twins (t.interpret chunk).state.withoutPlainLog ∧
    u.consumed chunk = t.consumed chunk := by
  induction chunk generalizing t u with
  | nil => exact ⟨rfl, twins, rfl⟩
  | cons byte rest ih =>
      obtain ⟨hsame, hnext⟩ := twins.step sound' sound.withoutPlainLog byte
      have hbare := sound.step_withoutPlainLog byte
      have hsound := sound.step byte
      have hsound' := sound'.step byte
      rw [interpret] at h
      simp only [interpret, consumed]
      generalize t.step byte = outcome at *
      generalize u.step byte = outcome' at *
      obtain ⟨next, error⟩ := outcome
      obtain ⟨next', error'⟩ := outcome'
      cases error with
      | none =>
          obtain ⟨herror, hstep⟩ := hbare (by simp [PlainLogFailed])
          obtain rfl : error' = none := hsame.trans herror
          obtain ⟨h₁, h₂, h₃⟩ := ih hsound hsound' (hnext.trans hstep) h
          exact ⟨h₁, h₂, congrArg (byte :: ·) h₃⟩
      | some error =>
          obtain ⟨herror, hstep⟩ := hbare h
          obtain rfl : error' = some error := hsame.trans herror
          exact ⟨rfl, hnext.trans hstep, rfl⟩

-- What is set between two calls: whether viewers are shown anything, and where it is logged
inductive Setting where
  | forward (on : Bool)
  | logs (plain raw : Option Writer)

def set (t : Terminal) : Setting → Terminal
  | .forward on => t.setForward on
  | .logs plain raw => t.setLogs plain raw

def setAll (t : Terminal) (settings : List Setting) : Terminal :=
  settings.foldl set t

-- Calls one after the other, each behind its settings and whatever became of those before it: the
-- terminal that each call finds, and its chunk
def calls (t : Terminal) : List (List Setting × Bytes) → List (Terminal × Bytes)
  | [] => []
  | (settings, chunk) :: rest =>
    (t.setAll settings, chunk) :: ((t.setAll settings).feed chunk).state.calls rest

-- What two calls have in common when nothing but their observers tells them apart: they read as far
-- as each other, are stopped by the same error, and leave the same behind.
structure SameTrack (call other : Terminal × Bytes) : Prop where
  consumed : call.1.cleared.consumed call.2 = other.1.cleared.consumed other.2
  error : (call.1.cleared.interpret call.2).error = (other.1.cleared.interpret other.2).error
  line : (call.1.feed call.2).state.line.toList = (other.1.feed other.2).state.line.toList
  cursor : (call.1.feed call.2).state.line.cursor = (other.1.feed other.2).state.line.cursor
  phase : (call.1.feed call.2).state.phase = (other.1.feed other.2).state.phase
  held : (call.1.feed call.2).state.heldBytes = (other.1.feed other.2).state.heldBytes
  modes : (call.1.feed call.2).state.modes = (other.1.feed other.2).state.modes
  unhandled : (call.1.feed call.2).state.unhandled = (other.1.feed other.2).state.unhandled

theorem setAll_twins (t : Terminal) (settings : List Setting) :
    (t.setAll settings).withoutPlainLog.Twins t.withoutPlainLog := by
  induction settings generalizing t with
  | nil => exact .refl _
  | cons setting rest ih =>
      refine (ih (t.set setting)).trans ?_
      cases setting <;> exact ⟨rfl, rfl, rfl, rfl, .refl _, rfl⟩

theorem Sound.setAll (sound : t.Sound) (settings : List Setting) : (t.setAll settings).Sound := by
  induction settings generalizing t with
  | nil => exact sound
  | cons setting rest ih => exact ih (by cases setting <;> exact sound.congr rfl rfl)

theorem Twins.withoutPlainLog (twins : t.Twins u) :
    t.withoutPlainLog.Twins u.withoutPlainLog :=
  ⟨twins.capacity, twins.reader, twins.unhandled, twins.page.modes, twins.page.line, rfl⟩

-- What two terminals have in common but for their logs is handed on by a call.
theorem Sound.sameTrack (sound : t.Sound) (sound' : u.Sound)
    (twins : t.withoutPlainLog.Twins u.withoutPlainLog) (chunk : Bytes)
    (h : ¬ PlainLogFailed (t.cleared.interpret chunk))
    (h' : ¬ PlainLogFailed (u.cleared.interpret chunk)) :
    SameTrack (t, chunk) (u, chunk) ∧
    (t.feed chunk).state.withoutPlainLog.Twins (u.feed chunk).state.withoutPlainLog := by
  have hbegun : t.cleared.withoutPlainLog.Twins u.cleared.withoutPlainLog :=
    ⟨twins.capacity, twins.reader, twins.unhandled, twins.page.modes, twins.page.line, rfl⟩
  have hbare := sound.cleared.withoutPlainLog
  obtain ⟨herror, hread, hconsumed⟩ :=
    sound.cleared.interpret_withoutPlainLog hbare (.refl _) h
  obtain ⟨herror', hread', hconsumed'⟩ :=
    sound'.cleared.interpret_withoutPlainLog hbare hbegun h'
  have hfed : (t.feed chunk).state.withoutPlainLog.Twins (u.feed chunk).state.withoutPlainLog :=
    (twins_feed t chunk).withoutPlainLog.trans
      (hread.symm.trans (hread'.trans (twins_feed u chunk).withoutPlainLog.symm))
  refine ⟨⟨?_, ?_, ?_, ?_, ?_, ?_, ?_, ?_⟩, hfed⟩
  · exact hconsumed.symm.trans hconsumed'
  · exact herror.symm.trans herror'
  · exact hfed.page.line.content
  · exact hfed.page.line.cursor
  · exact congrArg Reader.phase hfed.reader
  · exact congrArg Reader.held hfed.reader
  · exact hfed.page.modes
  · exact hfed.unhandled

theorem Sound.sameTrack_calls (sound : t.Sound) (sound' : u.Sound)
    (twins : t.withoutPlainLog.Twins u.withoutPlainLog)
    {run other : List (List Setting × Bytes)} (hchunks : run.map Prod.snd = other.map Prod.snd)
    (h : ∀ call ∈ t.calls run, ¬ PlainLogFailed (call.1.cleared.interpret call.2))
    (h' : ∀ call ∈ u.calls other, ¬ PlainLogFailed (call.1.cleared.interpret call.2)) :
    List.Forall₂ SameTrack (t.calls run) (u.calls other) := by
  induction run generalizing t u other with
  | nil =>
      obtain rfl := List.map_eq_nil_iff.mp hchunks.symm
      exact .nil
  | cons first rest ih =>
      obtain ⟨settings, chunk⟩ := first
      cases other with
      | nil => exact absurd hchunks (by simp)
      | cons first' rest' =>
          obtain ⟨settings', chunk'⟩ := first'
          obtain ⟨rfl, hrest⟩ := List.cons.inj hchunks
          have hset := (setAll_twins t settings).trans (twins.trans (setAll_twins u settings').symm)
          obtain ⟨hsame, hnext⟩ := (sound.setAll settings).sameTrack (sound'.setAll settings')
            hset chunk (h (t.setAll settings, chunk) (.head _))
            (h' (u.setAll settings', chunk) (.head _))
          refine .cons hsame (ih ((sound.setAll settings).feed chunk)
            ((sound'.setAll settings').feed chunk) hnext hrest ?_ ?_)
          · exact fun call hcall => h call (List.mem_cons_of_mem _ hcall)
          · exact fun call hcall => h' call (List.mem_cons_of_mem _ hcall)

-- Two terminals that begin alike, as far as the line and the sequences go
theorem twins_ofConfig {left right : Config}
    (hline : max left.lineCapacity 1 = max right.lineCapacity 1)
    (hescape : max left.escapeCapacity 8 = max right.escapeCapacity 8)
    (hdebug : left.debugCapacity = right.debugCapacity) (modes : Modes) :
    ((ofConfig left).withModes modes).withoutPlainLog.Twins
      ((ofConfig right).withModes modes).withoutPlainLog := by
  have hheld : (ofConfig left).held = (ofConfig right).held := by simp only [ofConfig, hescape]
  have hlines : (ofConfig left).line = (ofConfig right).line := by simp only [ofConfig, hline]
  refine ⟨congrArg ByteRing.capacity hheld, ?_, ?_, rfl, ?_, rfl⟩
  · exact congrArg (fun held => Reader.mk .normal held.slices.1) hheld
  · exact congrArg (fun capacity => History.mk capacity [] 0) hdebug
  · exact hlines ▸ ByteRing.Alike.refl (ofConfig left).line

-- A plain log that takes everything breaks no call off, nor does none.

def Setting.Gentle : Setting → Prop
  | forward _ => True
  | logs plain _ => ∀ log, plain = some log → log.Gentle

theorem PlainLogWilling.setAll (hlog : t.PlainLogWilling) {settings : List Setting}
    (h : ∀ setting ∈ settings, setting.Gentle) : (t.setAll settings).PlainLogWilling := by
  induction settings generalizing t with
  | nil => exact hlog
  | cons setting rest ih =>
      have hfirst : (t.set setting).PlainLogWilling := by
        cases setting with
        | forward on => exact hlog
        | logs plain raw => exact h (.logs plain raw) (.head _)
      exact ih hfirst fun later hlater => h later (List.mem_cons_of_mem _ hlater)

theorem PlainLogWilling.not_failed (hlog : t.PlainLogWilling) (sound : t.Sound) (chunk : Bytes) :
    ¬ PlainLogFailed (t.interpret chunk) := by
  rintro ⟨error, herror, htarget⟩
  rw [hlog.error_interpret sound herror] at htarget
  exact absurd htarget (by simp [SessionError.target?])

theorem PlainLogWilling.calls (hlog : t.PlainLogWilling) (sound : t.Sound)
    {run : List (List Setting × Bytes)} (h : ∀ call ∈ run, ∀ setting ∈ call.1, setting.Gentle) :
    ∀ call ∈ t.calls run, ¬ PlainLogFailed (call.1.cleared.interpret call.2) := by
  induction run generalizing t with
  | nil => simp [Terminal.calls]
  | cons first rest ih =>
      obtain ⟨settings, chunk⟩ := first
      have hset := hlog.setAll (h _ (.head _))
      have hsound := sound.setAll settings
      have hcleared : (t.setAll settings).cleared.PlainLogWilling := hset
      have hnext : ((t.setAll settings).feed chunk).state.PlainLogWilling := by
        rw [feed_state]
        exact hcleared.interpret hsound.cleared chunk
      intro call hcall
      rcases List.mem_cons.mp hcall with rfl | hcall
      · exact hcleared.not_failed hsound.cleared chunk
      · exact ih hnext (hsound.feed chunk) (fun later hlater => h later (.tail _ hlater)) call hcall

-- Viewers and logs do not feed back: whatever is forwarded and whatever is logged, of a plain log
-- that breaks no call off, one stream of output is read alike.
theorem calls_observers {left right : Config}
    (hline : max left.lineCapacity 1 = max right.lineCapacity 1)
    (hescape : max left.escapeCapacity 8 = max right.escapeCapacity 8)
    (hdebug : left.debugCapacity = right.debugCapacity) (modes : Modes)
    {run other : List (List Setting × Bytes)} (hchunks : run.map Prod.snd = other.map Prod.snd)
    (h : ∀ call ∈ ((ofConfig left).withModes modes).calls run,
      ¬ PlainLogFailed (call.1.cleared.interpret call.2))
    (h' : ∀ call ∈ ((ofConfig right).withModes modes).calls other,
      ¬ PlainLogFailed (call.1.cleared.interpret call.2)) :
    List.Forall₂ SameTrack (((ofConfig left).withModes modes).calls run)
      (((ofConfig right).withModes modes).calls other) := by
  have sound (config : Config) : ((ofConfig config).withModes modes).Sound :=
    (Reachable.setModes modes (.start : (ofConfig config).Reachable config)).sound
  exact (sound left).sameTrack_calls (sound right) (twins_ofConfig hline hescape hdebug modes)
    hchunks h h'

-- Two calls, the second of which overruns the line; with viewers and a log that takes one byte at
-- first, and with a raw log that fails and nothing else
theorem calls_observers_overrun :
    let plain : Writer := { script := [.take 1] }
    let run : List (List Setting × Bytes) :=
      [([.logs (some plain) none], [0x61, 0x0a]), ([], [0x62, 0x63, 0x64])]
    let other : List (List Setting × Bytes) :=
      [([.forward false, .logs none (some { device := .full })], [0x61, 0x0a]),
        ([.forward true], [0x62, 0x63, 0x64])]
    List.Forall₂ SameTrack (((ofConfig { lineCapacity := 2 }).withModes {}).calls run)
      (((ofConfig { lineCapacity := 2, forwardToViewers := false }).withModes {}).calls other) := by
  intro plain run other
  have sound (config : Config) : ((ofConfig config).withModes {}).Sound :=
    (Reachable.setModes {} (.start : (ofConfig config).Reachable config)).sound
  have hnone (config : Config) : ((ofConfig config).withModes {}).PlainLogWilling := by
    rintro log ⟨⟩
  have hplain : plain.Gentle := ⟨rfl, by simp [plain, Answer.Gentle]⟩
  refine calls_observers (by rfl) (by rfl) (by rfl) {} (by rfl) ((hnone _).calls (sound _) ?_)
    ((hnone _).calls (sound _) ?_)
  · simpa [run, Setting.Gentle] using hplain
  · simp [other, Setting.Gentle]

end TerminalRelay.Terminal
