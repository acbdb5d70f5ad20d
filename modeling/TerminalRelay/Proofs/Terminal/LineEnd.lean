import TerminalRelay.Proofs.ByteRing.Content
import TerminalRelay.Proofs.Writer.Faults
import TerminalRelay.Terminal.Line

namespace TerminalRelay

namespace Writer

-- A line goes to its log in the two pieces it lies in, with the newline behind them.
def deliverLine (log : Writer) (line : ByteRing) : Outcome Writer :=
  (log.deliver .plainLog line.slices.1).andThen fun log =>
    (log.deliver .plainLog line.slices.2).andThen fun log =>
      log.deliver .plainLog [Byte.newline]

theorem begins_deliverLine (log : Writer) (line : ByteRing) :
    log.Begins (line.toList ++ [Byte.newline]) (log.deliverLine line) := by
  rw [ByteRing.toList, List.append_assoc]
  exact (log.begins_deliver .plainLog _).andThen fun log₁ =>
    (log₁.begins_deliver .plainLog _).andThen fun log₂ => log₂.begins_deliver .plainLog _

theorem spends_deliverLine (log : Writer) (line : ByteRing) :
    log.Spends .plainLog (log.deliverLine line) :=
  (log.spends_deliver .plainLog _).andThen fun log₁ =>
    (log₁.spends_deliver .plainLog _).andThen fun log₂ => log₂.spends_deliver .plainLog _

theorem Gentle.accepts_deliverLine {log : Writer} (gentle : log.Gentle) (line : ByteRing) :
    log.Accepts (line.toList ++ [Byte.newline]) (log.deliverLine line) := by
  rw [ByteRing.toList, List.append_assoc]
  exact (gentle.accepts .plainLog _).andThen fun log₁ gentle₁ =>
    (gentle₁.accepts .plainLog _).andThen fun log₂ gentle₂ => gentle₂.accepts .plainLog _

end Writer

namespace Terminal

-- All that the end of a line can come to: without a log the line is gone, and with one it goes
-- there, or stays with the cursor at its end.
inductive EndsAs (t : Terminal) : Outcome Terminal → Prop
  | unlogged (hlog : t.plainLog = none) :
      EndsAs t ⟨{ t with line := (t.line.moveTo t.line.size).clearOnward }, none⟩
  | logged {log last : Writer} (hlog : t.plainLog = some log)
      (hdelivered : log.deliverLine t.line = ⟨last, none⟩) :
      EndsAs t ⟨{ t with
        plainLog := some last
        line := (t.line.moveTo t.line.size).clearOnward }, none⟩
  | refused {log last : Writer} {error : SessionError} (hlog : t.plainLog = some log)
      (hdelivered : log.deliverLine t.line = ⟨last, some error⟩) :
      EndsAs t ⟨{ t with plainLog := some last, line := t.line.moveTo t.line.size }, some error⟩

theorem endsAs_endLine (t : Terminal) : t.EndsAs t.endLine := by
  obtain ⟨modes, line, held, phase, forward, unhandled, plainLog, rawLog, viewers, notices⟩ := t
  cases plainLog with
  | none => exact .unlogged rfl
  | some log =>
      unfold endLine
      dsimp only
      generalize hwritten : (Outcome.andThen _ _) = written
      have hdelivered : log.deliverLine line = written := hwritten
      obtain ⟨last, error⟩ := written
      cases error with
      | none => exact .logged rfl hdelivered
      | some error => exact .refused rfl hdelivered

end Terminal

end TerminalRelay
