import TerminalRelay.Proofs.Mirror.Calls
import TerminalRelay.Proofs.Terminal.Overflow

namespace TerminalRelay.Terminal

variable {config : Config} {t : Terminal} {chunk : Bytes} {error : SessionError} {log : Writer}

def unlogged (t : Terminal) : Terminal :=
  t.setLogs t.plainLog none

theorem Sound.unlogged (sound : t.Sound) : t.unlogged.Sound := sound.congr rfl rfl

theorem twins_unlogged (t : Terminal) : t.cleared.Twins t.unlogged.cleared :=
  ⟨rfl, rfl, rfl, rfl, .refl _, rfl⟩

-- To interpret a chunk is to write to the plain log at most.
theorem Sound.target_interpret (sound : t.Sound) (h : (t.interpret chunk).error = some error) :
    error.target? = none ∨ error.target? = some .plainLog := by
  obtain ⟨before, byte, rest, -, -, hstep⟩ := interpret_eq_some_iff.mp h
  rw [((sound.reads_interpret before).sound.settles byte).error] at hstep
  rcases error_edit hstep with ⟨written, -, -, rfl⟩ | ⟨-, htarget⟩
  · exact .inl rfl
  · exact .inr htarget

-- The log is offered every chunk as it came, and its error goes first.
theorem Sound.feed_rawLog (sound : t.Sound) (hlog : t.rawLog = some log) (chunk : Bytes) :
    (t.feed chunk).state.rawLog = some (log.deliver .rawLog chunk).state ∧
    (t.feed chunk).error =
      (log.deliver .rawLog chunk).error.or (t.cleared.interpret chunk).error := by
  have hkept : (t.cleared.interpret chunk).state.rawLog = some log :=
    (sound.cleared.reads_interpret chunk).rawLog.trans hlog
  rw [feed_state, feed_eq, conclude_error]
  simp only [logRaw, hkept]
  exact ⟨trivial, trivial⟩

theorem Sound.feed_unlogged (sound : t.Sound) (chunk : Bytes) :
    (t.unlogged.feed chunk).error = (t.cleared.interpret chunk).error ∧
    (t.feed chunk).state.SameCourse (t.unlogged.feed chunk).state := by
  have hnone : t.unlogged.RawLogGentle := by rintro log ⟨⟩
  obtain ⟨herror, -, -⟩ := hnone.feed sound.unlogged chunk
  obtain ⟨hsame, htwins, -⟩ :=
    (twins_unlogged t).interpret sound.cleared sound.unlogged.cleared chunk
  refine ⟨herror.trans hsame.symm, ?_⟩
  exact ((twins_feed t chunk).trans (htwins.trans (twins_feed t.unlogged chunk).symm)).sameCourse

-- What a call and its raw log have to do with each other. The log takes a beginning of the chunk.
-- The call tells of the log if that is not all of it, and otherwise what it would tell without
-- the log; what else it leaves is the same without it in either case.
def LogsCall (t : Terminal) (chunk : Bytes) : Prop :=
  ∃ earlier accepted, t.logged = some earlier ∧ accepted <+: chunk ∧
    (t.feed chunk).state.logged = some (earlier ++ accepted) ∧
    (RawLogFailed (t.feed chunk) ↔ accepted ≠ chunk) ∧
    (accepted = chunk → (t.feed chunk).error = (t.unlogged.feed chunk).error) ∧
    (t.feed chunk).state.SameCourse (t.unlogged.feed chunk).state

theorem Sound.logsCall (sound : t.Sound) (hlog : t.rawLog = some log) (chunk : Bytes) :
    t.LogsCall chunk := by
  obtain ⟨accepted, hprefix, hcontents, hall⟩ := log.begins_deliver .rawLog chunk
  obtain ⟨hrawLog, herror⟩ := sound.feed_rawLog hlog chunk
  obtain ⟨hunlogged, hcourse⟩ := sound.feed_unlogged chunk
  refine ⟨log.contents, accepted, ?_, hprefix, ?_, ?_, ?_, hcourse⟩
  · rw [logged, hlog]
    rfl
  · rw [logged, hrawLog, ← hcontents]
    rfl
  · constructor
    -- an error of interpretation is never one of the raw log
    · rintro ⟨error, hfailed, htarget⟩ htaken
      rw [herror, hall.mpr htaken, Option.none_or] at hfailed
      rcases sound.cleared.target_interpret hfailed with hown | hown <;> simp [hown] at htarget
    · intro hmissed
      obtain ⟨error, hfailed⟩ := Option.ne_none_iff_exists'.mp fun hnone => hmissed (hall.mp hnone)
      refine ⟨error, ?_, Writer.target_deliver hfailed⟩
      rw [herror, hfailed, Option.some_or]
  · intro htaken
    rw [herror, hall.mpr htaken, Option.none_or, hunlogged]

-- Chunks fed one after the other, each under the modes of its call and whatever became of the calls
-- before it
def feedCalls (t : Terminal) : List (Modes × Bytes) → Terminal
  | [] => t
  | (modes, chunk) :: rest => ((t.withModes modes).feed chunk).state.feedCalls rest

theorem Sound.feedCalls (sound : t.Sound) (hlog : t.rawLog = some log)
    (calls : List (Modes × Bytes)) :
    (t.feedCalls calls).Sound ∧ ∃ log', (t.feedCalls calls).rawLog = some log' := by
  induction calls generalizing t log with
  | nil => exact ⟨sound, log, hlog⟩
  | cons call rest ih =>
      have sound' : (t.withModes call.1).Sound := sound.congr rfl rfl
      exact ih (sound'.feed call.2) (sound'.feed_rawLog hlog call.2).1

theorem Sound.logged_feedCalls (sound : t.Sound) (hraw : t.RawLogGentle)
    (calls : List (Modes × Bytes)) :
    (t.feedCalls calls).logged = t.logged.map (· ++ calls.flatMap Prod.snd) := by
  induction calls generalizing t with
  | nil => simp [Terminal.feedCalls]
  | cons call rest ih =>
      obtain ⟨modes, chunk⟩ := call
      have sound' : (t.withModes modes).Sound := sound.congr rfl rfl
      have hraw' : (t.withModes modes).RawLogGentle := hraw
      obtain ⟨-, hnext, hlogged⟩ := hraw'.feed sound' chunk
      have hsame : (t.withModes modes).logged = t.logged := rfl
      rw [Terminal.feedCalls, ih (sound'.feed chunk) hnext, hlogged, hsame, Option.map_map]
      congr 1
      funext earlier
      exact List.append_assoc earlier chunk _

-- A raw log that takes what it is offered holds the chunks of all calls, whatever the calls came
-- to. Of any other log each call tells truly whether it took the chunk.
theorem feedCalls_rawLog (h : t.Reachable config) (hlog : t.rawLog = some log)
    (calls : List (Modes × Bytes)) :
    (log.Gentle →
      (t.feedCalls calls).logged = some (log.contents ++ calls.flatMap Prod.snd)) ∧
    ∀ before modes chunk after, calls = before ++ (modes, chunk) :: after →
      ((t.feedCalls before).withModes modes).LogsCall chunk := by
  have sound := h.sound
  refine ⟨fun hgentle => ?_, ?_⟩
  · have hraw : t.RawLogGentle := by
      intro log' hlog'
      rwa [← Option.some.inj (hlog.symm.trans hlog')]
    rw [sound.logged_feedCalls hraw, logged, hlog]
    rfl
  · rintro before modes chunk after rfl
    obtain ⟨hreached, log', hlog'⟩ := sound.feedCalls hlog before
    have sound' : ((t.feedCalls before).withModes modes).Sound := hreached.congr rfl rfl
    exact sound'.logsCall hlog' chunk

-- A call that overruns the line, with a log that takes its bytes in parts, and one after it
theorem feedCalls_rawLog_overrun :
    let t := (ofConfig { lineCapacity := 2 }).setLogs none
      (some { script := [.take 2, .fail ⟨.interrupted, none⟩] })
    (t.feedCalls [({}, [0x61, 0x62, 0x63]), ({}, [0x64])]).logged =
      some [0x61, 0x62, 0x63, 0x64] ∧
    (t.withModes {}).LogsCall [0x61, 0x62, 0x63] := by
  intro t
  obtain ⟨hgentle, hcalls⟩ := feedCalls_rawLog (t := t) (.setLogs _ _ .start) rfl
    [({}, [0x61, 0x62, 0x63]), ({}, [0x64])]
  refine ⟨hgentle ⟨rfl, ?_⟩, hcalls [] {} [0x61, 0x62, 0x63] [({}, [0x64])] rfl⟩
  simp [Answer.Gentle, FaultKind.isTransient]

end TerminalRelay.Terminal
