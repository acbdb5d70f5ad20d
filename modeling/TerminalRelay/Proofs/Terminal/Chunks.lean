import TerminalRelay.Proofs.Terminal.Reachable
import TerminalRelay.Proofs.Transport.RoundTrip

namespace TerminalRelay

-- The newline that ends a stream is not part of what it says.
def withoutNewline (stream : Bytes) : Bytes :=
  if stream.getLast? = some Byte.newline then stream.dropLast else stream

theorem withoutNewline_render (items : List Transport.Item) (ended : Bool) :
    withoutNewline (Transport.render items ++ if ended then [Byte.newline] else []) =
      Transport.render items := by
  cases ended with
  | true => simp [withoutNewline]
  | false =>
      have hlast : (Transport.render items).getLast? ≠ some Byte.newline := by
        intro h
        exact Transport.newline_notMem_render items (List.mem_of_getLast? h)
      simp [withoutNewline, hlast]

namespace Terminal

-- What a call sends to the viewers, up to the newline of a success
def told (outcome : Outcome Terminal) : Bytes :=
  match outcome.error with
  | none => withoutNewline outcome.state.viewers.bytes
  | some _ => outcome.state.viewers.bytes

-- Chunks fed one after the other, up to the first that fails, and what is told on the way
def feedAll (t : Terminal) : List Bytes → Outcome Terminal × Bytes
  | [] => (⟨t, none⟩, [])
  | chunk :: rest =>
    match t.feed chunk with
    | ⟨next, none⟩ =>
      let (outcome, more) := next.feedAll rest
      (outcome, told ⟨next, none⟩ ++ more)
    | stopped => (stopped, told stopped)

theorem Reachable.feedAll {config : Config} {t : Terminal} (h : t.Reachable config)
    (chunks : List Bytes) : (t.feedAll chunks).1.state.Reachable config := by
  induction chunks generalizing t with
  | nil => exact h
  | cons chunk rest ih =>
      have hnext := h.feed chunk
      rw [Terminal.feedAll]
      generalize t.feed chunk = outcome at hnext
      obtain ⟨next, error⟩ := outcome
      cases error with
      | none => exact ih hnext
      | some error => exact hnext

-- Two terminals with the same line, reading the same from here on, and with the same on record
structure SameCourse (t u : Terminal) : Prop where
  line : t.line.toList = u.line.toList
  cursor : t.line.cursor = u.line.cursor
  phase : t.phase = u.phase
  held : t.heldBytes = u.heldBytes
  modes : t.modes = u.modes
  unhandled : t.unhandled = u.unhandled
  plainLog : t.plainLog = u.plainLog

theorem Twins.sameCourse {t u : Terminal} (twins : t.Twins u) : t.SameCourse u where
  line := twins.page.line.content
  cursor := twins.page.line.cursor
  phase := congrArg Reader.phase twins.reader
  held := congrArg Reader.held twins.reader
  modes := twins.page.modes
  unhandled := twins.unhandled
  plainLog := twins.page.plainLog

-- A raw log, if there is one, that in the end takes all it is offered
def RawLogGentle (t : Terminal) : Prop :=
  ∀ log, t.rawLog = some log → log.Gentle

-- What the raw log holds
def logged (t : Terminal) : Option Bytes :=
  t.rawLog.map Writer.contents

theorem Sound.feed_forward {t : Terminal} (sound : t.Sound) (chunk : Bytes) :
    (t.feed chunk).state.forward = t.forward := by
  rw [feed_state]
  exact (sound.cleared.reads_interpret chunk).forward

theorem logged_logRaw {t : Terminal} {chunk : Bytes} (h : (t.logRaw chunk).error = none) :
    (t.logRaw chunk).state.logged = t.logged.map (· ++ chunk) := by
  unfold logRaw at h ⊢
  unfold logged
  cases hlog : t.rawLog with
  | none =>
      rw [hlog]
      rfl
  | some log =>
      rw [hlog] at h
      exact congrArg some ((log.begins_deliver .rawLog chunk).contents h)

-- A call whose bytes the raw log has taken comes to what the reading of them comes to.
theorem Sound.feed_of_taken {t : Terminal} (sound : t.Sound) {chunk : Bytes}
    (htaken : ((t.cleared.interpret chunk).state.logRaw chunk).error = none) :
    (t.feed chunk).error = (t.cleared.interpret chunk).error ∧
    (t.feed chunk).state.logged = t.logged.map (· ++ chunk) := by
  have hkept : (t.cleared.interpret chunk).state.rawLog = t.rawLog :=
    (sound.cleared.reads_interpret chunk).rawLog
  have hlogged : (t.cleared.interpret chunk).state.logged = t.logged :=
    congrArg (Option.map Writer.contents) hkept
  refine ⟨?_, ?_⟩
  · rw [feed_eq, conclude_error, htaken, Option.none_or]
  · rw [← hlogged, ← logged_logRaw htaken, feed_state]
    rfl

theorem RawLogGentle.logRaw {t : Terminal} (hraw : t.RawLogGentle) (chunk : Bytes) :
    (t.logRaw chunk).error = none ∧ (t.logRaw chunk).state.RawLogGentle := by
  unfold Terminal.logRaw
  cases hlog : t.rawLog with
  | none => exact ⟨rfl, hraw⟩
  | some log =>
      have haccepts := (hraw log hlog).accepts .rawLog chunk
      refine ⟨haccepts.error, ?_⟩
      rintro log' ⟨⟩
      exact haccepts.gentle

theorem RawLogGentle.interpret {t : Terminal} (hraw : t.RawLogGentle) (sound : t.Sound)
    (chunk : Bytes) : (t.cleared.interpret chunk).state.RawLogGentle := by
  intro log hlog
  exact hraw log ((sound.cleared.reads_interpret chunk).rawLog.symm.trans hlog)

theorem RawLogGentle.feed {t : Terminal} (hraw : t.RawLogGentle) (sound : t.Sound)
    (chunk : Bytes) : (t.feed chunk).error = (t.cleared.interpret chunk).error ∧
    (t.feed chunk).state.RawLogGentle ∧
    (t.feed chunk).state.logged = t.logged.map (· ++ chunk) := by
  obtain ⟨htaken, hgentle⟩ := (hraw.interpret sound chunk).logRaw chunk
  obtain ⟨herror, hlogged⟩ := sound.feed_of_taken htaken
  refine ⟨herror, ?_, hlogged⟩
  rw [feed_state]
  exact hgentle

theorem Sound.told_feed {t : Terminal} (sound : t.Sound) (chunk : Bytes) : told (t.feed chunk) =
    Transport.render (t.cleared.interpret chunk).state.viewers.items.toList := by
  have hopen : (t.cleared.interpret chunk).state.viewers.ended = false :=
    (sound.cleared.reads_interpret chunk).ended
  unfold told ViewerStream.bytes
  rw [feed_state]
  cases (t.feed chunk).error with
  | none => exact withoutNewline_render _ _
  | some error => simp [hopen]

-- The raw log takes what these calls bring, as far as they get.
def RawLogTakes : Terminal → List Bytes → Prop
  | _, [] => True
  | t, chunk :: rest =>
    ((t.cleared.interpret chunk).state.logRaw chunk).error = none ∧
      ((t.feed chunk).error = none → (t.feed chunk).state.RawLogTakes rest)

theorem RawLogGentle.takes {t : Terminal} (hraw : t.RawLogGentle) (sound : t.Sound)
    (chunks : List Bytes) : t.RawLogTakes chunks := by
  induction chunks generalizing t with
  | nil => trivial
  | cons chunk rest ih =>
      have htaken := ((hraw.interpret sound chunk).logRaw chunk).1
      exact ⟨htaken, fun _ => ih (hraw.feed sound chunk).2.1 (sound.feed chunk)⟩

-- An error that tells of the raw log
def RawLogFailed (outcome : Outcome Terminal) : Prop :=
  ∃ error, outcome.error = some error ∧ error.target? = some .rawLog

theorem target_logRaw {t : Terminal} {chunk : Bytes} {error : SessionError}
    (h : (t.logRaw chunk).error = some error) : error.target? = some .rawLog := by
  unfold logRaw at h
  split at h
  · exact absurd h (by simp)
  · exact Writer.target_deliver h

-- The raw log's error is told before any other, so that it has none where none is told.
theorem takes_of_not_failed {t : Terminal} (chunks : List Bytes)
    (h : ¬ RawLogFailed (t.feedAll chunks).1) : t.RawLogTakes chunks := by
  induction chunks generalizing t with
  | nil => trivial
  | cons chunk rest ih =>
      rw [Terminal.feedAll] at h
      refine ⟨?_, ?_⟩
      · cases hlog : ((t.cleared.interpret chunk).state.logRaw chunk).error with
        | none => rfl
        | some error =>
            have herror : (t.feed chunk).error = some error := by
              rw [feed_eq, conclude_error, hlog, Option.some_or]
            generalize t.feed chunk = outcome at h herror
            obtain ⟨next, failure⟩ := outcome
            dsimp only at herror
            subst herror
            exact absurd ⟨error, rfl, target_logRaw hlog⟩ h
      · intro hnone
        generalize t.feed chunk = outcome at h hnone ⊢
        obtain ⟨next, failure⟩ := outcome
        dsimp only at hnone
        subst hnone
        exact ih h

-- The chunks on one side, all of them at once on the other. The side that is read at once keeps
-- what it has shown before, the other one has told it already.
theorem Twins.feedAll_of_takes {u v : Terminal} (twins : u.Twins v) (soundU : u.Sound)
    (soundV : v.Sound) (hforward : u.forward = v.forward) {chunks : List Bytes}
    (htakes : u.RawLogTakes chunks) :
    (u.feedAll chunks).1.error = (v.interpret chunks.flatten).error ∧
    (u.feedAll chunks).1.state.Twins (v.interpret chunks.flatten).state ∧
    ((u.feedAll chunks).1.error = none →
      (u.feedAll chunks).1.state.logged = u.logged.map (· ++ chunks.flatten)) ∧
    Transport.render (v.interpret chunks.flatten).state.viewers.items.toList =
      Transport.render v.viewers.items.toList ++ (u.feedAll chunks).2 := by
  induction chunks generalizing u v with
  | nil =>
      refine ⟨rfl, twins, ?_, (List.append_nil _).symm⟩
      intro _
      simp [Terminal.feedAll]
  | cons chunk rest ih =>
      obtain ⟨hsame, hread, hconsumed⟩ :=
        ((twins_cleared u).trans twins).interpret soundU.cleared soundV chunk
      obtain ⟨htaken, hrest⟩ := htakes
      obtain ⟨herror, hlogged⟩ := soundU.feed_of_taken htaken
      have hnext := (twins_feed u chunk).trans hread
      have htold := soundU.told_feed chunk
      have hshownU := (soundU.cleared.reads_interpret chunk).shown
      have hreadsV := soundV.reads_interpret chunk
      -- both sides show the same of this chunk, on top of nothing and of what was there
      have hshown : Transport.render (v.interpret chunk).state.viewers.items.toList =
          Transport.render v.viewers.items.toList ++ told (u.feed chunk) := by
        rw [htold, hshownU, hreadsV.shown, Transport.render_append, ← hconsumed, ← hforward,
          ← twins.capacity, ← twins.reader]
        rfl
      have hsound' := soundU.feed chunk
      have hforward' := (soundU.feed_forward chunk).trans (hforward.trans hreadsV.forward.symm)
      rw [hsame] at herror
      rw [List.flatten_cons, interpret_append, Terminal.feedAll]
      generalize u.feed chunk = fed at *
      obtain ⟨next, failure⟩ := fed
      generalize v.interpret chunk = read at *
      obtain ⟨next', failure'⟩ := read
      dsimp only at *
      subst herror
      cases failure with
      | none =>
          obtain ⟨h₁, h₂, h₃, h₄⟩ := ih hnext hsound' hreadsV.sound hforward' (hrest rfl)
          refine ⟨h₁, h₂, ?_, ?_⟩
          · intro hnone
            rw [h₃ hnone, hlogged, Option.map_map]
            congr 1
            funext before
            exact List.append_assoc before chunk rest.flatten
          · simp only [Outcome.andThen]
            rw [h₄, hshown, List.append_assoc]
      | some error => exact ⟨rfl, hnext, fun h => absurd h (by simp), hshown⟩

theorem Twins.feedAll {u v : Terminal} (twins : u.Twins v) (soundU : u.Sound) (soundV : v.Sound)
    (hforward : u.forward = v.forward) (hraw : u.RawLogGentle) (chunks : List Bytes) :
    (u.feedAll chunks).1.error = (v.interpret chunks.flatten).error ∧
    (u.feedAll chunks).1.state.Twins (v.interpret chunks.flatten).state ∧
    ((u.feedAll chunks).1.error = none →
      (u.feedAll chunks).1.state.logged = u.logged.map (· ++ chunks.flatten)) ∧
    Transport.render (v.interpret chunks.flatten).state.viewers.items.toList =
      Transport.render v.viewers.items.toList ++ (u.feedAll chunks).2 :=
  twins.feedAll_of_takes soundU soundV hforward (hraw.takes soundU chunks)

-- How output is cut into chunks makes no difference, whatever the cuts go through.
theorem feedAll_flatten {config : Config} {t : Terminal} (h : t.Reachable config)
    (hraw : t.RawLogGentle) (chunks : List Bytes) :
    (t.feedAll chunks).1.error = (t.feed chunks.flatten).error ∧
    (t.feedAll chunks).1.state.SameCourse (t.feed chunks.flatten).state ∧
    ((t.feed chunks.flatten).error = none →
      (t.feedAll chunks).1.state.logged = (t.feed chunks.flatten).state.logged) ∧
    (t.feedAll chunks).2 = told (t.feed chunks.flatten) := by
  have sound := h.sound
  obtain ⟨herror, htwins, hlogged, hshown⟩ :=
    (twins_cleared t).symm.feedAll sound sound.cleared rfl hraw chunks
  obtain ⟨herror', -, hlogged'⟩ := hraw.feed sound chunks.flatten
  have hsame := herror.trans herror'.symm
  refine ⟨hsame, ?_, ?_, ?_⟩
  · exact (htwins.trans (twins_feed t _).symm).sameCourse
  · intro hnone
    rw [hlogged (hsame.trans hnone), hlogged']
  · rw [sound.told_feed, hshown]
    rfl

-- A title whose introducer is cut in two, with a raw log that takes its first byte alone
theorem feedAll_flatten_title :
    let t := (Terminal.ofConfig {}).setLogs none (some { script := [.take 1] })
    (t.feedAll [[0x61, 0x1b], [], [0x5d, 0x30, 0x07], [0x62]]).1.state.SameCourse
        (t.feed [0x61, 0x1b, 0x5d, 0x30, 0x07, 0x62]).state ∧
      (t.feedAll [[0x61, 0x1b], [], [0x5d, 0x30, 0x07], [0x62]]).2 =
        told (t.feed [0x61, 0x1b, 0x5d, 0x30, 0x07, 0x62]) := by
  intro t
  have hgentle : t.RawLogGentle := by
    intro log hlog
    cases hlog
    exact ⟨rfl, by simp [Answer.Gentle]⟩
  obtain ⟨-, hcourse, -, htold⟩ := feedAll_flatten (t := t) (.setLogs _ _ .start) hgentle
    [[0x61, 0x1b], [], [0x5d, 0x30, 0x07], [0x62]]
  exact ⟨hcourse, htold⟩

end Terminal

end TerminalRelay
