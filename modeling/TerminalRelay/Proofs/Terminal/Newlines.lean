import TerminalRelay.Proofs.Terminal.RawLog
import Mathlib.Data.List.Forall2

namespace TerminalRelay

namespace Reader

variable {capacity : Nat} {reader : Reader}

-- A newline that ends a line leaves no sequence open behind it.
theorem Coherent.read_newline (hcoherent : reader.Coherent capacity)
    (hphase : reader.phase ≠ .title false) :
    (Reader.read capacity reader Byte.newline).1 = ground := by
  have hprintable : Byte.isPrintable Byte.newline = false := by decide
  have hescape : Byte.newline ≠ Byte.escape := by decide
  obtain ⟨phase, held⟩ := reader
  cases phase with
  | normal => rfl
  | collecting => exact (textRead_held hcoherent.1 hprintable hescape).reader
  | title sawEscape =>
      cases sawEscape with
      | false => exact absurd rfl hphase
      | true => exact (textRead_held .escape hprintable hescape).reader
  | overlong => rfl

end Reader

namespace Terminal

variable {config : Config} {t u : Terminal} {chunk earlier rest : Bytes} {byte : UInt8}
  {outcome other : Outcome Terminal} {error : SessionError}

-- What the end of a line comes to. Without an error the plain log, if there is one, has the line
-- and its newline, and the line is empty. With one the log has less than that, and the line stays.
structure Ended (t : Terminal) (outcome : Outcome Terminal) : Prop where
  line : outcome.state.line.toList = if outcome.error = none then [] else t.line.toList
  cursor : outcome.state.line.cursor = outcome.state.line.toList.length
  modes : outcome.state.modes = t.modes
  unlogged : t.plainLog = none → outcome.error = none
  taken : ∃ taken, Beginning (t.line.toList ++ [Byte.newline]) taken outcome.error ∧
    outcome.state.written = t.written.map (· ++ taken)
  refused : ∀ error, outcome.error = some error → ∃ log last, t.plainLog = some log ∧
    outcome.state.plainLog = some last ∧ log.Halts .plainLog error last

theorem ended_endLine (t : Terminal) : t.Ended t.endLine := by
  have hempty : (t.line.moveTo t.line.size).clearOnward.toList = [] :=
    ByteRing.toList_clearOnward _
  have hlength : ((t.line.moveTo t.line.size).clearOnward).cursor =
      (t.line.moveTo t.line.size).clearOnward.toList.length := by
    rw [hempty]
    rfl
  have htaken {log last : Writer} {failure : Option SessionError} (hlog : t.plainLog = some log)
      (hdelivered : log.deliverLine t.line = ⟨last, failure⟩) (u : Terminal)
      (hlast : u.plainLog = some last) : ∃ taken,
      Beginning (t.line.toList ++ [Byte.newline]) taken failure ∧
        u.written = t.written.map (· ++ taken) := by
    obtain ⟨taken, hbeginning, hcontents⟩ := Writer.begins_iff.mp (log.begins_deliverLine t.line)
    rw [hdelivered] at hbeginning hcontents
    refine ⟨taken, hbeginning, ?_⟩
    rw [written, written, hlast, hlog]
    exact congrArg some hcontents
  have hends := endsAs_endLine t
  generalize t.endLine = outcome at hends ⊢
  cases hends with
  | unlogged hlog =>
      refine ⟨hempty, hlength, rfl, fun _ => rfl, ⟨_, ⟨List.prefix_rfl, by simp⟩, ?_⟩, by simp⟩
      simp [written, hlog]
  | logged hlog hdelivered =>
      exact ⟨hempty, hlength, rfl, fun _ => rfl, htaken hlog hdelivered _ rfl, by simp⟩
  | @refused log last failure hlog hdelivered =>
      refine ⟨rfl, ?_, rfl, by simp [hlog], htaken hlog hdelivered _ rfl, ?_⟩
      · exact (Nat.min_self _).trans (ByteRing.length_toList _).symm
      · rintro _ ⟨⟩
        have hhalts := (log.spends_deliverLine t.line).halts (congrArg Outcome.error hdelivered)
        rw [hdelivered] at hhalts
        exact ⟨log, last, hlog, rfl, hhalts⟩

theorem Ended.congr (h : t.Ended outcome) (herror : other.error = outcome.error)
    (hpage : other.state.SamePage outcome.state) : t.Ended other where
  line := by rw [hpage.line.content, herror, h.line]
  cursor := by rw [hpage.line.cursor, hpage.line.content, h.cursor]
  modes := hpage.modes.trans h.modes
  unlogged hnone := herror.trans (h.unlogged hnone)
  taken := by
    obtain ⟨taken, hbeginning, hwritten⟩ := h.taken
    refine ⟨taken, herror ▸ hbeginning, ?_⟩
    rw [← hwritten, written, written, hpage.plainLog]
  refused error herror' := by
    obtain ⟨log, last, hlog, hlast, hhalts⟩ := h.refused error (herror ▸ herror')
    exact ⟨log, last, hlog, hpage.plainLog.trans hlast, hhalts⟩

theorem Sound.ended_step (sound : t.Sound) (h : t.endsLine byte = true) :
    t.Ended (t.step byte) ∧ (t.step byte).state.phase = .normal := by
  have hstep := sound.settles byte
  obtain ⟨rfl, hphase⟩ := endsLine_iff.mp h
  have hedit := (sound.edit_eq_endLine Byte.newline).mpr h
  have herror := hstep.error
  have hpage := hstep.page
  rw [hedit] at herror hpage
  refine ⟨(ended_endLine t).congr herror hpage, ?_⟩
  have hreader := hstep.reader
  rw [sound.coherent.read_newline hphase] at hreader
  exact congrArg Reader.phase hreader

theorem Sound.plainLog_step (sound : t.Sound) (h : ¬ t.endsLine byte = true) :
    (t.step byte).state.plainLog = t.plainLog := by
  rw [(sound.settles byte).page.plainLog]
  exact edit_plainLog t fun hedit => h ((sound.edit_eq_endLine byte).mp hedit)

-- A newline that ends a line: the line as it stands then, and what becomes of it
structure Flush where
  line : Bytes
  error : Option SessionError

-- The log takes a beginning of the line with its newline, and all of it exactly if it is told so.
def Flush.Took (flush : Flush) (taken : Bytes) : Prop :=
  Beginning (flush.line ++ [Byte.newline]) taken flush.error

-- The flushes of a chunk in order, up to one that fails
def flushes (t : Terminal) : Bytes → List Flush
  | [] => []
  | byte :: rest =>
    (if t.endsLine byte then [⟨t.line.toList, (t.step byte).error⟩] else []) ++
      match t.step byte with
      | ⟨next, none⟩ => next.flushes rest
      | ⟨_, some _⟩ => []

-- The flushes of all calls
def flushesCalls (t : Terminal) : List (Modes × Bytes) → List Flush
  | [] => []
  | (modes, chunk) :: rest =>
    (t.withModes modes).cleared.flushes chunk ++
      ((t.withModes modes).feed chunk).state.flushesCalls rest

-- So much went to the plain log, flush by flush.
def Receives (t : Terminal) (flushes : List Flush) (u : Terminal) : Prop :=
  ∃ taken, List.Forall₂ Flush.Took flushes taken ∧
    u.written = t.written.map (· ++ taken.flatten)

theorem receives_nothing (h : u.written = t.written) : t.Receives [] u := by
  refine ⟨[], .nil, h.trans ?_⟩
  simp

theorem Receives.trans {v : Terminal} {first second : List Flush} (h : t.Receives first u)
    (h' : u.Receives second v) : t.Receives (first ++ second) v := by
  obtain ⟨taken, htook, hwritten⟩ := h
  obtain ⟨more, htook', hwritten'⟩ := h'
  refine ⟨taken ++ more, List.rel_append htook htook', hwritten'.trans ?_⟩
  rw [hwritten, Option.map_map, List.flatten_append]
  congr 1
  funext before
  exact List.append_assoc before _ _

theorem Sound.receives_step (sound : t.Sound) (byte : UInt8) :
    t.Receives (if t.endsLine byte then [⟨t.line.toList, (t.step byte).error⟩] else [])
      (t.step byte).state := by
  by_cases hends : t.endsLine byte = true
  · obtain ⟨taken, hbeginning, hwritten⟩ := (sound.ended_step hends).1.taken
    rw [if_pos hends]
    refine ⟨[taken], .cons hbeginning .nil, hwritten.trans ?_⟩
    rw [List.flatten_singleton]
  · rw [if_neg hends]
    exact receives_nothing (congrArg (Option.map Writer.contents) (sound.plainLog_step hends))

theorem Sound.receives_interpret (sound : t.Sound) (chunk : Bytes) :
    t.Receives (t.flushes chunk) (t.interpret chunk).state := by
  induction chunk generalizing t with
  | nil => exact receives_nothing rfl
  | cons byte rest ih =>
      have hstep := sound.receives_step byte
      have hsound := sound.step byte
      rw [interpret, flushes]
      generalize t.step byte = outcome at hstep hsound ⊢
      obtain ⟨next, error⟩ := outcome
      cases error with
      | none => exact hstep.trans (ih hsound)
      | some error =>
          rw [List.append_nil]
          exact hstep

theorem Sound.receives_feed (sound : t.Sound) (chunk : Bytes) :
    t.Receives (t.cleared.flushes chunk) (t.feed chunk).state := by
  obtain ⟨taken, htook, hwritten⟩ := sound.cleared.receives_interpret chunk
  refine ⟨taken, htook, ?_⟩
  rw [feed_state]
  exact hwritten

theorem Sound.receives_feedCalls (sound : t.Sound) (calls : List (Modes × Bytes)) :
    t.Receives (t.flushesCalls calls) (t.feedCalls calls) := by
  induction calls generalizing t with
  | nil => exact receives_nothing rfl
  | cons call rest ih =>
      obtain ⟨modes, chunk⟩ := call
      have sound' : (t.withModes modes).Sound := sound.congr rfl rfl
      exact (sound'.receives_feed chunk).trans (ih (sound'.feed chunk))

-- The raw log's error of a call, which is told before any other
def rawFault? (t : Terminal) (chunk : Bytes) : Option SessionError :=
  t.rawLog.bind fun log => (log.deliver .rawLog chunk).error

theorem Sound.error_feed (sound : t.Sound) (chunk : Bytes) :
    (t.feed chunk).error = (t.rawFault? chunk).or (t.cleared.interpret chunk).error := by
  have hkept : (t.cleared.interpret chunk).state.rawLog = t.rawLog :=
    (sound.cleared.reads_interpret chunk).rawLog
  rw [feed_eq, conclude_error, logRaw, hkept, rawFault?]
  cases t.rawLog <;> rfl

-- Text behind the end of a line is offered with it when the newline comes.
theorem Sound.head_flushes (sound : t.Sound) (hphase : t.phase = .normal)
    (hend : t.line.cursor = t.line.toList.length) {text : Bytes}
    (htext : ∀ byte ∈ text, isLineByte byte = true)
    (hfits : t.line.toList.length + text.length ≤ t.line.capacity) (rest : Bytes) :
    ∃ error, (t.flushes (text ++ Byte.newline :: rest)).head? =
      some ⟨t.line.toList ++ text, error⟩ := by
  induction text generalizing t with
  | nil =>
      have hends : t.endsLine Byte.newline = true := endsLine_iff.mpr ⟨rfl, by simp [hphase]⟩
      rw [List.nil_append, List.append_nil, flushes, if_pos hends]
      exact ⟨_, rfl⟩
  | cons byte text ih =>
      have hbyte := htext byte (by simp)
      have hends : ¬ t.endsLine byte = true := by
        intro hends
        rw [(endsLine_iff.mp hends).1] at hbyte
        exact absurd hbyte (by decide)
      have hwrites : t.phase.writes byte = true := by
        rw [hphase, Phase.writes, hbyte]
        rfl
      rw [List.length_cons] at hfits
      obtain ⟨hnone, hline, hcursor⟩ := sound.writes_step hwrites (by omega)
      have hcapacity := sound.line_capacity_interpret [byte]
      have hreader := (sound.textStep hwrites).reader
      have hsound := sound.step byte
      rw [interpret_singleton] at hcapacity
      rw [hend, List.take_length, List.drop_of_length_le (Nat.le_succ _)] at hline
      rw [List.cons_append, flushes, if_neg hends, List.nil_append]
      generalize t.step byte = outcome at *
      obtain ⟨next, error⟩ := outcome
      dsimp only at *
      subst hnone
      have hlength : next.line.toList.length = t.line.toList.length + 1 := by
        rw [hline, List.length_append, List.length_singleton]
      obtain ⟨error, hhead⟩ := ih hsound (congrArg Reader.phase hreader) (by omega)
        (fun b hb => htext b (List.mem_cons_of_mem _ hb)) (by omega)
      refine ⟨error, hhead.trans ?_⟩
      rw [hline, List.append_assoc, List.singleton_append]

-- What a call leaves of a line that the plain log refused: all of it, with the cursor behind it, so
-- that the next newline offers it again, with the text that came in between.
structure Keeps (t : Terminal) (chunk kept : Bytes) (modes : Modes) (error : SessionError) :
    Prop where
  told : (t.feed chunk).error = (t.rawFault? chunk).or (some error)
  line : (t.feed chunk).state.line.toList = kept
  cursor : (t.feed chunk).state.line.cursor = kept.length
  modes : (t.feed chunk).state.modes = modes
  phase : (t.feed chunk).state.phase = .normal
  offered : ∀ (modes' : Modes) (text rest : Bytes), (∀ byte ∈ text, isLineByte byte = true) →
    kept.length + text.length ≤ t.line.capacity → ∃ error,
      (((t.feed chunk).state.withModes modes').cleared.flushes
        (text ++ Byte.newline :: rest)).head? = some ⟨kept ++ text, error⟩

theorem Sound.keeps (sound : t.Sound) (rest : Bytes)
    (hdealt : (t.cleared.interpret earlier).error = none)
    (hends : (t.cleared.interpret earlier).state.endsLine Byte.newline = true)
    (hrefused : ((t.cleared.interpret earlier).state.step Byte.newline).error = some error) :
    t.Keeps (earlier ++ Byte.newline :: rest) (t.cleared.interpret earlier).state.line.toList
      (t.cleared.interpret earlier).state.modes error := by
  have hstopped : (t.cleared.interpret (earlier ++ [Byte.newline])).error = some error :=
    (congrArg Outcome.error (interpret_snoc hdealt Byte.newline)).trans hrefused
  have hread : t.cleared.interpret (earlier ++ Byte.newline :: rest) =
      (t.cleared.interpret earlier).state.step Byte.newline := by
    rw [List.append_cons, interpret_stopped hstopped, interpret_snoc hdealt]
  have hcapacity := sound.cleared.line_capacity_interpret (earlier ++ Byte.newline :: rest)
  have htold := sound.error_feed (earlier ++ Byte.newline :: rest)
  have htwins := twins_feed t (earlier ++ Byte.newline :: rest)
  have hsound := sound.feed (earlier ++ Byte.newline :: rest)
  obtain ⟨hended, hnormal⟩ :=
    (sound.cleared.reads_interpret earlier).sound.ended_step hends
  rw [hread] at hcapacity htold htwins
  rw [hrefused] at htold
  have hline : (t.feed (earlier ++ Byte.newline :: rest)).state.line.toList =
      (t.cleared.interpret earlier).state.line.toList := by
    rw [htwins.page.line.content, hended.line, hrefused]
    rfl
  have hcursor : (t.feed (earlier ++ Byte.newline :: rest)).state.line.cursor =
      (t.feed (earlier ++ Byte.newline :: rest)).state.line.toList.length := by
    rw [htwins.page.line.cursor, htwins.page.line.content, hended.cursor]
  have hphase : (t.feed (earlier ++ Byte.newline :: rest)).state.phase = .normal :=
    (congrArg Reader.phase htwins.reader).trans hnormal
  refine ⟨htold, hline, hline ▸ hcursor, htwins.page.modes.trans hended.modes, hphase, ?_⟩
  intro modes' text rest' htext hfits
  have hroom := htwins.page.line.capacity.trans hcapacity
  have hsound' :
      ((t.feed (earlier ++ Byte.newline :: rest)).state.withModes modes').cleared.Sound :=
    hsound.congr rfl rfl
  rw [← hline] at hfits ⊢
  have hfits' := Nat.le_trans hfits (Nat.le_of_eq hroom.symm)
  exact hsound'.head_flushes hphase hcursor htext hfits' rest'

theorem Reachable.feedCalls (h : t.Reachable config) (calls : List (Modes × Bytes)) :
    (t.feedCalls calls).Reachable config := by
  induction calls generalizing t with
  | nil => exact h
  | cons call rest ih => exact ih (.feed call.2 (.setModes call.1 h))

-- However the plain log answers, no line is lost. It gets the lines in order, each with its newline
-- and whole if the call goes on behind it; and a line of which it took less stays in the terminal,
-- to be offered again.
theorem feedCalls_plainLog (h : t.Reachable config) (calls : List (Modes × Bytes)) :
    t.Receives (t.flushesCalls calls) (t.feedCalls calls) ∧
    ∀ before modes earlier rest after,
      calls = before ++ (modes, earlier ++ Byte.newline :: rest) :: after →
      let called := (t.feedCalls before).withModes modes
      let reached := (called.cleared.interpret earlier).state
      (called.cleared.interpret earlier).error = none → reached.phase ≠ .title false →
        reached.Ended (reached.step Byte.newline) ∧
        (reached.step Byte.newline).state.phase = .normal ∧
        ∀ error, (reached.step Byte.newline).error = some error →
          called.Keeps (earlier ++ Byte.newline :: rest) reached.line.toList reached.modes
            error := by
  refine ⟨h.sound.receives_feedCalls calls, ?_⟩
  rintro before modes earlier rest after - called reached hdealt hphase
  have sound : called.Sound := (h.feedCalls before).sound.congr rfl rfl
  have hends : reached.endsLine Byte.newline = true := endsLine_iff.mpr ⟨rfl, hphase⟩
  obtain ⟨hended, hnormal⟩ := (sound.cleared.reads_interpret earlier).sound.ended_step hends
  exact ⟨hended, hnormal, fun error hrefused => sound.keeps rest hdealt hends hrefused⟩

-- The log fails in the middle of the first line, and gets all of it with the next newline.
theorem feedCalls_plainLog_again :
    let fault : Fault := ⟨.brokenPipe, none⟩
    let log : Writer := { script := [.take 1, .fail fault] }
    let t := (ofConfig { lineCapacity := 4 }).setLogs (some log) none
    let calls : List (Modes × Bytes) := [({}, [0x61, 0x62, 0x0a]), ({}, [0x63, 0x0a])]
    t.Receives (t.flushesCalls calls) (t.feedCalls calls) ∧
    (t.withModes {}).Keeps [0x61, 0x62, 0x0a] [0x61, 0x62] {} (.write .plainLog fault) ∧
    (t.feedCalls calls).written = some [0x61, 0x61, 0x62, 0x63, 0x0a] := by
  intro fault log t calls
  obtain ⟨hreceives, hnewlines⟩ := feedCalls_plainLog (t := t) (.setLogs _ _ .start) calls
  obtain ⟨-, -, hkeeps⟩ := hnewlines [] {} [0x61, 0x62] [] [({}, [0x63, 0x0a])] rfl
    (by decide +kernel) (by decide +kernel)
  have hrefused := hkeeps (.write .plainLog fault) (by decide +kernel)
  have hline : ((t.withModes {}).cleared.interpret [0x61, 0x62]).state.line.toList =
      [0x61, 0x62] := by decide +kernel
  have hmodes : ((t.withModes {}).cleared.interpret [0x61, 0x62]).state.modes = {} := by
    decide +kernel
  have hbegun : t.feedCalls [] = t := rfl
  rw [hbegun, hline, hmodes] at hrefused
  exact ⟨hreceives, hrefused, by decide +kernel⟩

end Terminal

end TerminalRelay
