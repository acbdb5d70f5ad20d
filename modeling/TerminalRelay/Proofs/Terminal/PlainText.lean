import TerminalRelay.Proofs.Terminal.Newlines

namespace TerminalRelay.Terminal

variable {config : Config} {t : Terminal} {bytes chunk : Bytes} {byte : UInt8} {edit : Edit}
  {log : Writer} {flush : Flush} {lines : List Bytes}

-- Tabs are the only control bytes in it.
def Legible (bytes : Bytes) : Prop :=
  ∀ byte ∈ bytes, byte = Byte.tab ∨ (0x20 ≤ byte ∧ byte ≠ Byte.delete)

theorem legible_nil : Legible [] := by simp [Legible]

theorem Legible.newline_notMem (h : Legible bytes) : Byte.newline ∉ bytes :=
  fun hmem => absurd (h Byte.newline hmem) (by decide)

theorem Legible.take (h : Legible bytes) (count : Nat) : Legible (bytes.take count) :=
  fun byte hbyte => h byte (List.mem_of_mem_take hbyte)

theorem Legible.drop (h : Legible bytes) (count : Nat) : Legible (bytes.drop count) :=
  fun byte hbyte => h byte (List.mem_of_mem_drop hbyte)

theorem Legible.append {left right : Bytes} (h : Legible left) (h' : Legible right) :
    Legible (left ++ right) :=
  fun byte hbyte => (List.mem_append.mp hbyte).elim (h byte) (h' byte)

theorem legible_singleton (h : isLineByte byte = true) : Legible [byte] := by
  simpa [Legible, isLineByte] using h

theorem legible_put {ring : ByteRing} (h : Legible ring.toList) (hbyte : isLineByte byte = true)
    (room : ring.cursor < ring.capacity) : Legible (ring.put byte room).toList := by
  rw [ByteRing.toList_put, List.append_cons]
  exact ((h.take _).append (legible_singleton hbyte)).append (h.drop _)

-- An edit writes one byte or a blank at most, and otherwise leaves out some of what is there.
theorem legible_edit (h : Legible t.line.toList)
    (hput : ∀ byte, edit = .put byte → isLineByte byte = true) :
    Legible (t.edit edit).state.line.toList := by
  cases edit with
  | keep => exact h
  | put byte =>
      simp only [Terminal.edit, putLine]
      split
      · exact legible_put h (hput byte rfl) ‹_›
      · exact h
  | endLine =>
      have hline : t.endLine.state.line.toList = _ := (ended_endLine t).line
      simp only [Terminal.edit, hline]
      split
      · exact legible_nil
      · exact h
  | returnCarriage => exact h
  | stepBack => exact h
  | act action =>
      cases action with
      | eraseToEnd =>
          simp only [Terminal.edit, apply, ByteRing.toList_truncate]
          exact h.take _
      | cursorUp count =>
          simp only [Terminal.edit, apply, cursorUp]
          split <;> exact h
      | cursorForward count =>
          simp only [Terminal.edit, apply, cursorForward]
          split
          · exact h
          · split
            · exact legible_put h (by decide) ‹_›
            · exact h
      | deleteChars count =>
          simp only [Terminal.edit, apply, deleteChars]
          split
          · simp only [ByteRing.toList_remove]
            exact (h.take _).append (h.drop _)
          · exact h
      | appCursor on => exact h
      | altScreen mode on => exact h

-- Whatever a sequence comes to, only bytes of text go to the line, those that give it up included.
theorem Sound.legible_step (sound : t.Sound) (h : Legible t.line.toList) (byte : UInt8) :
    Legible (t.step byte).state.line.toList := by
  rw [(sound.settles byte).page.line.content]
  refine legible_edit h fun written hedit => ?_
  obtain ⟨hwrites, rfl⟩ := (sound.coherent.edit_eq_put byte written).mp hedit
  exact (Bool.and_eq_true_iff.mp hwrites).1

theorem Sound.legible_interpret (sound : t.Sound) (h : Legible t.line.toList) (chunk : Bytes) :
    Legible (t.interpret chunk).state.line.toList := by
  induction chunk generalizing t with
  | nil => exact h
  | cons byte rest ih =>
      have hsound := sound.step byte
      have hstep := sound.legible_step h byte
      rw [interpret]
      generalize t.step byte = outcome at hsound hstep ⊢
      obtain ⟨next, error⟩ := outcome
      cases error with
      | none => exact ih hsound hstep
      | some error => exact hstep

theorem Reachable.legible (h : t.Reachable config) : Legible t.line.toList := by
  induction h with
  | start =>
      rw [ofConfig, ByteRing.toList_empty]
      exact legible_nil
  | @feed t chunk h ih =>
      rw [feed_state]
      exact h.sound.cleared.legible_interpret ih chunk
  | reset h ih =>
      rw [Terminal.reset, ByteRing.toList_reset]
      exact legible_nil
  | setLogs plain raw h ih => exact ih
  | setForward on h ih => exact ih
  | setModes modes h ih => exact ih

-- A flush is the end of a line that the chunk has left so far.
theorem mem_flushes (h : flush ∈ t.flushes chunk) : ∃ before,
    flush.line = (t.interpret before).state.line.toList ∧
    flush.error = ((t.interpret before).state.step Byte.newline).error := by
  induction chunk generalizing t with
  | nil => exact absurd h (by simp [flushes])
  | cons byte rest ih =>
      rw [flushes, List.mem_append] at h
      rcases h with hfirst | hrest
      · by_cases hends : t.endsLine byte = true
        · rw [if_pos hends, List.mem_singleton] at hfirst
          obtain ⟨rfl, -⟩ := endsLine_iff.mp hends
          exact ⟨[], by rw [hfirst]; rfl, by rw [hfirst]; rfl⟩
        · rw [if_neg hends] at hfirst
          exact absurd hfirst (by simp)
      · have hinterpret := interpret_cons t byte
        generalize t.step byte = outcome at hrest hinterpret
        obtain ⟨next, error⟩ := outcome
        cases error with
        | none =>
            obtain ⟨before, hline, herror⟩ := ih hrest
            have hread : t.interpret (byte :: before) = next.interpret before := hinterpret before
            exact ⟨byte :: before, by rw [hread, hline], by rw [hread, herror]⟩
        | some error => exact absurd hrest (by simp)

theorem Reachable.flushes (h : t.Reachable config) (hflush : flush ∈ t.cleared.flushes chunk) :
    flush.line.length ≤ max config.lineCapacity 1 ∧ Legible flush.line := by
  obtain ⟨before, hline, -⟩ := mem_flushes hflush
  have sound := h.sound.cleared
  have hcapacity := sound.line_capacity_interpret before
  rw [hline]
  refine ⟨?_, sound.legible_interpret h.legible before⟩
  rw [ByteRing.length_toList, ← h.line_capacity]
  exact Nat.le_trans (ByteRing.size_le_capacity _) (Nat.le_of_eq hcapacity)

theorem PlainLogWilling.flushes (hlog : t.PlainLogWilling) (sound : t.Sound)
    (h : flush ∈ t.flushes chunk) : flush.error = none := by
  obtain ⟨before, -, herror⟩ := mem_flushes h
  rw [herror]
  exact (hlog.interpret sound before).step_newline (sound.reads_interpret before).sound

-- What a log takes that refuses none of the lines
theorem flatten_took {flushes : List Flush} {taken : List Bytes}
    (htook : List.Forall₂ Flush.Took flushes taken) (h : ∀ flush ∈ flushes, flush.error = none) :
    taken.flatten = withNewlines (flushes.map Flush.line) := by
  induction htook with
  | nil => rfl
  | @cons flush first flushes taken hfirst hrest ih =>
      have hall : first = flush.line ++ [Byte.newline] := hfirst.all.mp (h flush (.head _))
      rw [List.flatten_cons, hall, ih fun later hlater => h later (.tail _ hlater)]
      rfl

theorem PlainLogWilling.written_feed (hlog : t.PlainLogWilling) (sound : t.Sound)
    (chunk : Bytes) : (t.feed chunk).state.written =
      t.written.map (· ++ withNewlines ((t.cleared.flushes chunk).map Flush.line)) := by
  have hcleared : t.cleared.PlainLogWilling := hlog
  obtain ⟨taken, htook, hwritten⟩ := sound.receives_feed chunk
  rw [hwritten, flatten_took htook fun flush => hcleared.flushes sound.cleared]

theorem PlainLogWilling.feed (hlog : t.PlainLogWilling) (sound : t.Sound) (chunk : Bytes) :
    (t.feed chunk).state.PlainLogWilling := by
  have hcleared : t.cleared.PlainLogWilling := hlog
  exact (hcleared.interpret sound.cleared chunk).of_page (twins_feed t chunk).page

-- This log was attached to a terminal, and since then newlines have ended these lines.
inductive Ends (config : Config) (log : Writer) : Terminal → List Bytes → Prop
  | attach {t : Terminal} (raw : Option Writer) (h : t.Reachable config) :
      Ends config log (t.setLogs (some log) raw) []
  | feed {t : Terminal} {lines : List Bytes} (chunk : Bytes) (h : Ends config log t lines) :
      Ends config log (t.feed chunk).state (lines ++ (t.cleared.flushes chunk).map Flush.line)
  | reset {t : Terminal} {lines : List Bytes} (h : Ends config log t lines) :
      Ends config log t.reset lines
  | setForward {t : Terminal} {lines : List Bytes} (on : Bool) (h : Ends config log t lines) :
      Ends config log (t.setForward on) lines
  | setModes {t : Terminal} {lines : List Bytes} (modes : Modes) (h : Ends config log t lines) :
      Ends config log { t with modes } lines

theorem Ends.reachable (h : Ends config log t lines) : t.Reachable config := by
  induction h with
  | attach raw h => exact .setLogs _ raw h
  | feed chunk h ih => exact .feed chunk ih
  | reset h ih => exact .reset ih
  | setForward on h ih => exact .setForward on ih
  | setModes modes h ih => exact .setModes modes ih

theorem Ends.written (h : Ends config log t lines) (hlog : log.Gentle) :
    t.PlainLogWilling ∧ t.written = some (log.contents ++ withNewlines lines) := by
  induction h with
  | attach raw h =>
      refine ⟨?_, congrArg some (List.append_nil _).symm⟩
      rintro _ ⟨⟩
      exact hlog
  | @feed t lines chunk h ih =>
      obtain ⟨hwilling, hwritten⟩ := ih
      have sound := h.reachable.sound
      refine ⟨hwilling.feed sound chunk, ?_⟩
      rw [hwilling.written_feed sound, hwritten, Option.map_some, withNewlines_append,
        List.append_assoc]
  | reset h ih => exact ih
  | setForward on h ih => exact ih
  | setModes modes h ih => exact ih

theorem Ends.legible (h : Ends config log t lines) : ∀ line ∈ lines,
    line.length ≤ max config.lineCapacity 1 ∧ Legible line := by
  induction h with
  | attach raw h => simp
  | feed chunk h ih =>
      intro line hline
      rcases List.mem_append.mp hline with hearlier | hnew
      · exact ih line hearlier
      · obtain ⟨flush, hflush, rfl⟩ := List.mem_map.mp hnew
        exact h.reachable.flushes hflush
  | reset h ih => exact ih
  | setForward on h ih => exact ih
  | setModes modes h ih => exact ih

-- Lines without newlines can be told apart again.
theorem splitOn_withNewlines (h : ∀ line ∈ lines, Byte.newline ∉ line) :
    (withNewlines lines).splitOn Byte.newline = lines ++ [[]] := by
  induction lines with
  | nil => rfl
  | cons line lines ih =>
      have hline : ∀ byte ∈ line, (byte == Byte.newline) = false := by
        intro byte hbyte
        exact beq_eq_false_iff_ne.mpr fun heq => h line (.head _) (heq ▸ hbyte)
      have hsplit : withNewlines (line :: lines) =
          line ++ Byte.newline :: withNewlines lines := by
        simp [withNewlines]
      rw [hsplit, List.splitOn_append_cons_of_forall_mem_beq_eq_false hline _ (beq_self_eq_true _),
        ih fun later hlater => h later (.tail _ hlater)]
      rfl

-- No control byte but the tab gets into the line, whatever is fed. So what goes to a plain log that
-- takes everything is split at its newlines into the lines that were ended, in order, and none of
-- them is longer than the line can be.
theorem plainLog_legible (config : Config) :
    (∀ t : Terminal, t.Reachable config → Legible t.line.toList) ∧
    ∀ log : Writer, log.Gentle → ∀ t lines, Ends config log t lines →
      ∃ text, t.written = some (log.contents ++ text) ∧
        text.splitOn Byte.newline = lines ++ [[]] ∧
        ∀ line ∈ lines, line.length ≤ max config.lineCapacity 1 ∧ Legible line := by
  refine ⟨fun t h => h.legible, fun log hlog t lines h => ?_⟩
  refine ⟨withNewlines lines, (h.written hlog).2, ?_, h.legible⟩
  exact splitOn_withNewlines fun line hline => (h.legible line hline).2.newline_notMem

-- A sequence that a byte of text gives up, bells and backspaces in the text, and a log that takes
-- one byte at first
theorem plainLog_legible_abandoned :
    let config : Config := { lineCapacity := 4 }
    let log : Writer := { script := [.take 1] }
    let first : Bytes := [0x61, 0x1b, 0x5b, 0xe9, 0x07, 0x08, 0x09, 0x0a]
    let second : Bytes := [0x1b, 0x5b, 0x43, 0x0a, 0x62]
    let t := (((ofConfig config).setLogs (some log) none).feed first).state
    let u := (t.feed second).state
    Legible u.line.toList ∧ u.written = some [0x61, 0x09, 0x0a, 0x20, 0x0a] ∧
    ([0x61, 0x09, 0x0a, 0x20, 0x0a] : Bytes).splitOn Byte.newline = [[0x61, 0x09], [0x20], []] ∧
    ∀ line ∈ ([[0x61, 0x09], [0x20]] : List Bytes), line.length ≤ 4 ∧ Legible line := by
  intro config log first second t u
  have hlines : ([] ++ (((ofConfig config).setLogs (some log) none).cleared.flushes first).map
      Flush.line) ++ (t.cleared.flushes second).map Flush.line = [[0x61, 0x09], [0x20]] := by
    decide +kernel
  have hends : Ends config log u [[0x61, 0x09], [0x20]] :=
    hlines ▸ .feed second (.feed first (.attach none .start))
  have hlog : log.Gentle := ⟨rfl, by simp [log, Answer.Gentle]⟩
  obtain ⟨hline, hplain⟩ := plainLog_legible config
  obtain ⟨text, hwritten, hsplit, hlines⟩ := hplain log hlog u _ hends
  have hknown : u.written = some [0x61, 0x09, 0x0a, 0x20, 0x0a] := by decide +kernel
  obtain rfl : [0x61, 0x09, 0x0a, 0x20, 0x0a] = text := Option.some.inj (hknown.symm.trans hwritten)
  exact ⟨hline u hends.reachable, hwritten, hsplit, hlines⟩

-- A line has room for one byte even if it is to have room for none; and this one is a tab.
theorem tab_line_without_room :
    let config : Config := { lineCapacity := 0 }
    let log : Writer := {}
    let t := (((ofConfig config).setLogs (some log) none).feed [0x09, 0x0a]).state
    Ends config log t [[0x09]] ∧ t.written = some [0x09, 0x0a] ∧
    ¬ ∀ line ∈ ([[0x09]] : List Bytes),
      line.length ≤ config.lineCapacity ∧ ∀ byte ∈ line, 0x20 ≤ byte := by
  intro config log t
  have hlines : [] ++ (((ofConfig config).setLogs (some log) none).cleared.flushes
      [0x09, 0x0a]).map Flush.line = [[0x09]] := by decide +kernel
  exact ⟨hlines ▸ .feed [0x09, 0x0a] (.attach none .start), by decide +kernel, by decide⟩

end TerminalRelay.Terminal
