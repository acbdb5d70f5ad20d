import TerminalRelay.Proofs.Editor.Basic
import TerminalRelay.Proofs.Sequence.Table
import TerminalRelay.Proofs.Terminal.Collecting

namespace TerminalRelay

namespace Reader

open Sequence (kept)

variable {capacity : Nat}

theorem kept_eq_self {bytes : Bytes} (h : ∀ byte ∈ bytes, 0x20 ≤ byte) : kept bytes = bytes := by
  apply List.filter_eq_self.mpr
  intro byte hmem
  simpa using ne_backspace (h byte hmem)

-- A sequence read without backspaces is held back whole, and changes nothing yet.
theorem read_held (capacity : Nat) {more : Bytes} (hmore : ∀ byte ∈ more, 0x20 ≤ byte)
    (hopen : Sequence.Open (Byte.escape :: more)) (hfits : more.length < capacity) :
    after capacity ground (Byte.escape :: more) = ⟨.collecting, Byte.escape :: more⟩ ∧
    edits capacity ground (Byte.escape :: more) = [] := by
  have hkept := kept_eq_self hmore
  have hstart : read capacity ground Byte.escape = (opened, {}) := rfl
  have hlength : ([Byte.escape] ++ kept more).length ≤ capacity := by
    rw [hkept, List.length_append, List.length_singleton]
    omega
  obtain ⟨hafter, hreports⟩ := read_collecting more (by simp) (by rwa [hkept]) hlength
  refine ⟨?_, ?_⟩
  · rw [after_cons, hstart, opened, hafter, hkept]
    rfl
  · rw [edits_cons, hstart, opened, edits, hreports]
    simp only [ite_true, List.nil_append, List.filter_eq_nil_iff, List.mem_map]
    rintro _ ⟨_, ⟨byte, hmem, rfl⟩, rfl⟩
    simp [heldReport, ne_backspace (hmore byte hmem)]

theorem parameter_ge {byte : UInt8} (h : Sequence.IsParameter byte) : 0x20 ≤ byte := h.1

theorem bracket_ge {body : Bytes} (h : ∀ byte ∈ body, Sequence.IsParameter byte) :
    ∀ byte ∈ '['.toUInt8 :: body, 0x20 ≤ byte := by
  intro byte hmem
  rcases List.mem_cons.mp hmem with rfl | hmem
  · decide
  · exact (h byte hmem).1

theorem controlFinal_ge {byte : UInt8} (h : Sequence.IsControlFinal byte) : 0x20 ≤ byte :=
  UInt8.le_trans (by decide) h.1

-- What outgrew its store passes up to the final byte, with no effect.
theorem read_overlong (capacity : Nat) (held : Bytes) {body : Bytes} {final : UInt8}
    (hbody : ∀ byte ∈ body, Sequence.IsParameter byte) (hfinal : Sequence.IsControlFinal final) :
    after capacity ⟨.overlong, held⟩ (body ++ [final]) = ground ∧
    edits capacity ⟨.overlong, held⟩ (body ++ [final]) = [] := by
  induction body with
  | nil =>
      have hread :=
        read_ordinary capacity (Byte.ordinary_of_ge (controlFinal_ge hfinal)) ⟨.overlong, held⟩
      dsimp only at hread
      rw [readOverlong, if_neg hfinal.not_parameter, if_pos hfinal] at hread
      simp [edits_cons, hread]
  | cons byte rest ih =>
      have hbyte := hbody byte (by simp)
      have hread :=
        read_ordinary capacity (Byte.ordinary_of_ge (parameter_ge hbyte)) ⟨.overlong, held⟩
      dsimp only at hread
      rw [readOverlong, if_pos hbyte] at hread
      obtain ⟨hafter, hedits⟩ := ih fun b hb => hbody b (List.mem_cons_of_mem _ hb)
      rw [List.cons_append, after_cons, edits_cons, hread]
      exact ⟨hafter, by simp [hedits]⟩

-- The byte for which there is no room is read as one of a sequence that outgrew its store.
theorem read_full {held : Bytes} {byte : UInt8} (hbyte : 0x20 ≤ byte)
    (hfull : held.length = capacity) (rest : Bytes) :
    after capacity ⟨.collecting, held⟩ (byte :: rest) =
      after capacity ⟨.overlong, held⟩ (byte :: rest) ∧
    edits capacity ⟨.collecting, held⟩ (byte :: rest) =
      edits capacity ⟨.overlong, held⟩ (byte :: rest) := by
  have hread := read_ordinary capacity (Byte.ordinary_of_ge hbyte) ⟨.collecting, held⟩
  have hread' := read_ordinary capacity (Byte.ordinary_of_ge hbyte) ⟨.overlong, held⟩
  dsimp only at hread hread'
  rw [readHeld_of_full (ne_escape hbyte) hfull] at hread
  rw [after_cons, after_cons, edits_cons, edits_cons, hread, hread']
  exact ⟨rfl, rfl⟩

theorem read_control_of_le {body : Bytes} {final : UInt8}
    (hbody : ∀ byte ∈ body, Sequence.IsParameter byte) (hfinal : Sequence.IsControlFinal final)
    (hfits : body.length + 3 ≤ capacity) :
    after capacity ground (Sequence.controlSequence body final) = ground ∧
    edits capacity ground (Sequence.controlSequence body final) =
      ((Sequence.action? body final).map Edit.act).toList := by
  have hlast := controlFinal_ge hfinal
  have hsplit : Sequence.controlSequence body final =
      (Byte.escape :: '['.toUInt8 :: body) ++ [final] := rfl
  obtain ⟨hafter, hedits⟩ := read_held capacity (bracket_ge hbody) (.control _ hbody)
    (by rw [List.length_cons]; omega)
  have hread := read_ordinary capacity (Byte.ordinary_of_ge hlast)
    ⟨.collecting, Byte.escape :: '['.toUInt8 :: body⟩
  dsimp only at hread
  rw [readHeld_of_lt (ne_escape hlast) (by simp only [List.length_cons]; omega), ← hsplit,
    Sequence.scan_controlSequence hfinal] at hread
  rw [hsplit, after_append, edits_append, hafter, hedits, after_cons, edits_cons, hread]
  unfold Sequence.controlMeaning
  cases Sequence.action? body final with
  | some action => simp [readScanned]
  | none =>
      simp only [readScanned]
      split <;> simp [Report.ofUnhandled]

-- Here the store is full before the final byte comes.
theorem read_control_of_lt {body : Bytes} {final : UInt8} (hcapacity : 2 ≤ capacity)
    (hbody : ∀ byte ∈ body, Sequence.IsParameter byte) (hfinal : Sequence.IsControlFinal final)
    (hlong : capacity < body.length + 3) :
    after capacity ground (Sequence.controlSequence body final) = ground ∧
    edits capacity ground (Sequence.controlSequence body final) = [] := by
  have hlength : (body.take (capacity - 2)).length = capacity - 2 := by
    rw [List.length_take]
    omega
  have hsplit : Sequence.controlSequence body final =
      (Byte.escape :: '['.toUInt8 :: body.take (capacity - 2)) ++
        (body.drop (capacity - 2) ++ [final]) := by
    rw [List.cons_append, List.cons_append, ← List.append_assoc, List.take_append_drop]
    rfl
  have htake : ∀ byte ∈ body.take (capacity - 2), Sequence.IsParameter byte :=
    fun byte hmem => hbody byte (List.mem_of_mem_take hmem)
  have hdrop : ∀ byte ∈ body.drop (capacity - 2), Sequence.IsParameter byte :=
    fun byte hmem => hbody byte (List.mem_of_mem_drop hmem)
  obtain ⟨hafter, hedits⟩ := read_held capacity (bracket_ge htake) (.control _ htake)
    (by rw [List.length_cons]; omega)
  obtain ⟨hafter', hedits'⟩ := read_overlong capacity
    (Byte.escape :: '['.toUInt8 :: body.take (capacity - 2)) hdrop hfinal
  have hfull : (Byte.escape :: '['.toUInt8 :: body.take (capacity - 2)).length = capacity := by
    simp only [List.length_cons]
    omega
  obtain ⟨next, rest, hnext⟩ : ∃ next rest, body.drop (capacity - 2) ++ [final] = next :: rest :=
    List.exists_cons_of_ne_nil (by simp)
  have hbyte : 0x20 ≤ next := by
    have hmem : next ∈ body.drop (capacity - 2) ++ [final] := by simp [hnext]
    rcases List.mem_append.mp hmem with hmem | hmem
    · exact parameter_ge (hdrop next hmem)
    · rw [List.mem_singleton.mp hmem]
      exact controlFinal_ge hfinal
  obtain ⟨hsame, hsame'⟩ := read_full hbyte hfull rest
  rw [hsplit, after_append, edits_append, hafter, hedits, hnext, hsame, hsame', ← hnext]
  exact ⟨hafter', hedits'⟩

theorem read_understood {body : Bytes} {final : UInt8} {action : Action}
    (haction : Sequence.action? body final = some action)
    (hbody : ∀ byte ∈ body, Sequence.IsParameter byte) (hfinal : Sequence.IsControlFinal final)
    (hfits : body.length + 3 ≤ capacity) :
    after capacity ground (Sequence.controlSequence body final) = ground ∧
    edits capacity ground (Sequence.controlSequence body final) = [.act action] := by
  obtain ⟨hafter, hedits⟩ := read_control_of_le hbody hfinal hfits
  rw [haction] at hedits
  exact ⟨hafter, hedits⟩

theorem read_otherEscape {intermediates : Bytes} {final : UInt8}
    (hfits : intermediates.length + 2 ≤ capacity)
    (hall : ∀ byte ∈ intermediates, Sequence.IsIntermediate byte)
    (hfinal : Sequence.IsEscapeFinal final)
    (hother : intermediates = [] → final ∉ ['['.toUInt8, ']'.toUInt8]) :
    after capacity ground (Byte.escape :: (intermediates ++ [final])) = ground ∧
    edits capacity ground (Byte.escape :: (intermediates ++ [final])) = [] := by
  have hlast : 0x20 ≤ final := UInt8.le_trans (by decide) hfinal.1
  have hopen : Sequence.Open (Byte.escape :: intermediates) := by
    by_cases hne : intermediates = []
    · rw [hne]
      exact .escape
    · exact .intermediates intermediates hne hall
  have hscan := Sequence.scan_otherEscape hall hfinal hother
  obtain ⟨hafter, hedits⟩ := read_held capacity (fun byte hmem => (hall byte hmem).1) hopen
    (by omega)
  have hread := read_ordinary capacity (Byte.ordinary_of_ge hlast)
    ⟨.collecting, Byte.escape :: intermediates⟩
  dsimp only at hread
  rw [readHeld_of_lt (ne_escape hlast) (by rw [List.length_cons]; omega), List.cons_append,
    hscan] at hread
  rw [← List.cons_append, after_append, edits_append, hafter, hedits, after_cons, edits_cons, hread]
  simp only [readScanned]
  split <;> simp [Report.ofUnhandled]

end Reader

namespace Editor

def Token.edits : Token → List Edit
  | text byte => [.put byte]
  | newline => [.endLine]
  | carriageReturn => [.returnCarriage]
  | backspace => [.stepBack]
  | eraseToEnd _ => [.act .eraseToEnd]
  | cursorUp digits => [.act (.cursorUp (Sequence.count digits))]
  | cursorForward digits => [.act (.cursorForward (Sequence.count digits))]
  | deleteChars digits => [.act (.deleteChars (Sequence.count digits))]
  | privateMode digits on => [.act (Sequence.modeAction digits on)]
  | control _ | otherControl _ _ | otherEscape _ _ => []

theorem isLineByte_iff (byte : UInt8) : Terminal.isLineByte byte = true ↔
    byte = Byte.tab ∨ (0x20 ≤ byte ∧ byte ≤ 0x7e) ∨ 0x80 ≤ byte := by
  simp only [Terminal.isLineByte, Bool.or_eq_true, Bool.and_eq_true, beq_iff_eq, bne_iff_ne,
    decide_eq_true_eq, UInt8.le_iff_toNat_le, ne_eq, ← UInt8.toNat_inj, Byte.tab, Byte.delete]
  simp only [UInt8.reduceToNat]
  omega

-- A piece of output leaves nothing open and has just its own effect.
def Token.ReadAlone (limit : Nat) (token : Token) : Prop :=
  Reader.ground.after limit token.bytes = .ground ∧
  Reader.ground.edits limit token.bytes = token.edits

theorem readAlone_text {limit : Nat} {byte : UInt8} (h : (Token.text byte).WellFormed limit) :
    (Token.text byte).ReadAlone limit := by
  have hline := (isLineByte_iff byte).mpr h
  have hnewline : byte ≠ Byte.newline := by rintro rfl; exact absurd hline (by decide)
  have hread : Reader.ground.read limit byte = Reader.readText byte :=
    Reader.read_ordinary limit (Byte.ordinary_of_isLineByte hline) .ground
  rw [Reader.readText, Edit.ofText, if_neg hnewline, if_pos hline] at hread
  simp [Token.ReadAlone, Token.bytes, Token.edits, Reader.edits_cons, hread]

theorem readAlone_control {limit : Nat} {byte : UInt8}
    (h : (Token.control byte).WellFormed limit) : (Token.control byte).ReadAlone limit := by
  obtain ⟨hrange, hne⟩ := h
  simp only [List.mem_cons, List.not_mem_nil, or_false, not_or] at hne
  obtain ⟨htab, hnewline, hreturn, hbackspace, hescape⟩ := hne
  by_cases hbel : byte = Byte.bel
  · subst hbel
    exact ⟨rfl, rfl⟩
  · have hline : ¬ Terminal.isLineByte byte = true := by
      rcases hrange with hlow | rfl
      · have hnot : ¬ 0x20 ≤ byte := UInt8.not_le.mpr hlow
        simp [Terminal.isLineByte, htab, hnot]
      · decide
    have hread : Reader.ground.read limit byte = Reader.readText byte :=
      Reader.read_ordinary limit ⟨hreturn, hbackspace, hbel, hescape⟩ .ground
    rw [Reader.readText, Edit.ofText, if_neg hnewline, if_neg hline] at hread
    simp [Token.ReadAlone, Token.bytes, Token.edits, Reader.edits_cons, hread]

theorem readAlone_privateMode {limit : Nat} {digits : Bytes} {on : Bool}
    (h : (Token.privateMode digits on).WellFormed limit) :
    (Token.privateMode digits on).ReadAlone limit := by
  obtain ⟨hmode, hfits⟩ := h
  have hbody : ∀ byte ∈ '?'.toUInt8 :: digits, Sequence.IsParameter byte := by
    intro byte hmem
    rcases List.mem_cons.mp hmem with rfl | hmem
    · decide
    · exact Sequence.isParameter_of_isDigit (hmode.1 byte hmem)
  have haction := Sequence.privateMode?_of_isPrivateMode hmode on
  cases on with
  | false => exact Reader.read_understood haction hbody (by decide) hfits
  | true => exact Reader.read_understood haction hbody (by decide) hfits

theorem readAlone_otherControl {limit : Nat} {body : Bytes} {final : UInt8}
    (h : (Token.otherControl body final).WellFormed limit) (hlimit : 2 ≤ limit) :
    (Token.otherControl body final).ReadAlone limit := by
  obtain ⟨hbody, hfinal, hother⟩ := h
  by_cases hfits : body.length + 3 ≤ limit
  · have hnone : Sequence.action? body final = none := by
      apply Sequence.action?_eq_none
      intro hunderstood
      exact absurd hfits (Nat.not_le_of_lt (hother hunderstood))
    obtain ⟨hafter, hedits⟩ := Reader.read_control_of_le hbody hfinal hfits
    rw [hnone] at hedits
    exact ⟨hafter, hedits⟩
  · exact Reader.read_control_of_lt hlimit hbody hfinal (Nat.lt_of_not_le hfits)

theorem readAlone {limit : Nat} {token : Token} (h : token.WellFormed limit)
    (hlimit : 8 ≤ limit) : token.ReadAlone limit := by
  cases token with
  | text byte => exact readAlone_text h
  | newline => exact ⟨rfl, rfl⟩
  | carriageReturn => exact ⟨rfl, rfl⟩
  | backspace => exact ⟨rfl, rfl⟩
  | control byte => exact readAlone_control h
  | eraseToEnd zero =>
      have hlimit' : 1 + 3 ≤ limit := by omega
      cases zero with
      | false => exact Reader.read_understood rfl (by simp) (by decide) (Nat.le_of_succ_le hlimit')
      | true =>
          have hbody : ∀ byte ∈ ['0'.toUInt8], Sequence.IsParameter byte := by
            intro byte hmem
            rw [List.mem_singleton.mp hmem]
            decide
          exact Reader.read_understood rfl hbody (by decide) hlimit'
  | cursorUp digits =>
      obtain ⟨hcount, hfits⟩ := h
      have haction : Sequence.action? digits 'A'.toUInt8 =
          some (.cursorUp (Sequence.count digits)) :=
        congrArg (Option.map Action.cursorUp) (Sequence.count?_of_isCount hcount)
      exact Reader.read_understood haction hcount.isParameter (by decide) hfits
  | cursorForward digits =>
      obtain ⟨hcount, hfits⟩ := h
      have haction : Sequence.action? digits 'C'.toUInt8 =
          some (.cursorForward (Sequence.count digits)) :=
        congrArg (Option.map Action.cursorForward) (Sequence.count?_of_isCount hcount)
      exact Reader.read_understood haction hcount.isParameter (by decide) hfits
  | deleteChars digits =>
      obtain ⟨hcount, hfits⟩ := h
      have haction : Sequence.action? digits 'P'.toUInt8 =
          some (.deleteChars (Sequence.count digits)) :=
        congrArg (Option.map Action.deleteChars) (Sequence.count?_of_isCount hcount)
      exact Reader.read_understood haction hcount.isParameter (by decide) hfits
  | privateMode digits on => exact readAlone_privateMode h
  | otherControl body final => exact readAlone_otherControl h (Nat.le_trans (by decide) hlimit)
  | otherEscape intermediates final =>
      obtain ⟨hall, hfinal, hother, hfits⟩ := h
      exact Reader.read_otherEscape hfits hall hfinal hother

theorem read_tokens {limit : Nat} {tokens : List Token}
    (h : ∀ token ∈ tokens, token.WellFormed limit) (hlimit : 8 ≤ limit) :
    Reader.ground.after limit (tokens.flatMap Token.bytes) = .ground ∧
    Reader.ground.edits limit (tokens.flatMap Token.bytes) = tokens.flatMap Token.edits := by
  induction tokens with
  | nil => exact ⟨rfl, rfl⟩
  | cons token rest ih =>
      obtain ⟨hafter, hedits⟩ := readAlone (h token (by simp)) hlimit
      obtain ⟨hafter', hedits'⟩ := ih fun token' hmem => h token' (List.mem_cons_of_mem _ hmem)
      rw [List.flatMap_cons, List.flatMap_cons, Reader.after_append, Reader.edits_append, hafter,
        hedits, hafter', hedits']
      exact ⟨rfl, rfl⟩

end Editor

end TerminalRelay
