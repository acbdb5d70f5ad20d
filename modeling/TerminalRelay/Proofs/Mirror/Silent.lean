import TerminalRelay.Proofs.Mirror.Basic
import TerminalRelay.Proofs.Terminal.Collecting

namespace TerminalRelay.Reader

open Mirror (TitleText Backspaces)

variable {capacity : Nat}

-- Reading these bytes leads from one reader to the other, and there is nothing to report of it.
inductive Silent (capacity : Nat) : Reader → Bytes → Reader → Prop
  | nil (reader : Reader) : Silent capacity reader [] reader
  | cons {reader between next : Reader} {byte : UInt8} {rest : Bytes}
      (hread : read capacity reader byte = (between, {})) (h : Silent capacity between rest next) :
      Silent capacity reader (byte :: rest) next

theorem Silent.append {reader between next : Reader} {left right : Bytes}
    (h : Silent capacity reader left between) (h' : Silent capacity between right next) :
    Silent capacity reader (left ++ right) next := by
  induction h with
  | nil reader => exact h'
  | cons hread h ih => exact .cons hread (ih h')

theorem read_titleIntroducer (hcapacity : 1 < capacity) :
    read capacity opened ']'.toUInt8 = (⟨.title false, []⟩, {}) := by
  rw [read_ordinary capacity (Byte.ordinary_of_ge (by decide))]
  exact readHeld_of_lt (by decide) hcapacity

-- The ESC of a terminator that does not come begins a sequence of its own.
theorem read_titleOther {byte : UInt8}
    (hbyte : byte ∉ [Byte.carriageReturn, Byte.backspace, Byte.bel, Byte.backslash]) :
    read capacity ⟨.title true, []⟩ byte = read capacity opened byte := by
  simp only [List.mem_cons, List.not_mem_nil, or_false, not_or] at hbyte
  obtain ⟨hreturn, hbackspace, hbel, hbackslash⟩ := hbyte
  simp only [read, opened, hreturn, hbackspace, hbel, hbackslash, ite_false]

theorem silent_text {text : Bytes} (htext : TitleText text) :
    Silent capacity ⟨.title false, []⟩ text ⟨.title false, []⟩ := by
  induction text with
  | nil => exact .nil _
  | cons byte text ih =>
      have hbyte := htext byte (by simp)
      simp only [List.mem_cons, List.not_mem_nil, or_false, not_or] at hbyte
      obtain ⟨hreturn, hbel, hescape⟩ := hbyte
      have hread : read capacity ⟨.title false, []⟩ byte = (⟨.title false, []⟩, {}) := by
        by_cases hbackspace : byte = Byte.backspace
        · subst hbackspace
          rfl
        · simp only [read, hreturn, hbackspace, hbel, hescape, ite_false]
      exact .cons hread (ih fun b hb => htext b (List.mem_cons_of_mem _ hb))

-- Backspaces may stand between the ESC of a terminator and its backslash.
theorem silent_backspaces {inner : Bytes} (hinner : Backspaces inner) :
    Silent capacity ⟨.title true, []⟩ inner ⟨.title true, []⟩ := by
  induction inner with
  | nil => exact .nil _
  | cons byte inner ih =>
      have hbyte := hinner byte (by simp)
      subst hbyte
      exact .cons rfl (ih fun b hb => hinner b (List.mem_cons_of_mem _ hb))

theorem silent_escape {inner : Bytes} (hinner : Backspaces inner) :
    Silent capacity ⟨.title false, []⟩ (Byte.escape :: inner) ⟨.title true, []⟩ :=
  .cons rfl (silent_backspaces hinner)

end TerminalRelay.Reader
