import TerminalRelay.Proofs.Byte
import TerminalRelay.TerminalSize
import Mathlib.Data.List.TakeWhile

namespace TerminalRelay

namespace Numeral

variable {text digits : List Char} {value n : Nat}

-- A number as it may be written: any digits, at least one, behind a plus sign or none
def Denotes (text : List Char) (n : Nat) : Prop :=
  ∃ digits, (text = digits ∨ text = '+' :: digits) ∧ digits ≠ [] ∧
    (∀ c ∈ digits, c.isDigit = true) ∧ Nat.ofDigitChars 10 digits 0 = n

-- The numbers of 16 bits
def IsWord (text : List Char) : Prop :=
  ∃ n < Nat.pow 2 16, Denotes text n

theorem denotes_cons {c : Char} {rest : List Char} (hc : c ≠ '+') : Denotes (c :: rest) n ↔
    (∀ d ∈ c :: rest, d.isDigit = true) ∧ Nat.ofDigitChars 10 (c :: rest) 0 = n := by
  constructor
  · rintro ⟨digits, rfl | heq, hne, hrest⟩
    · exact hrest
    · exact absurd (List.cons.inj heq).1 hc
  · exact fun hrest => ⟨c :: rest, .inl rfl, List.cons_ne_nil _ _, hrest⟩

theorem denotes_plus : Denotes ('+' :: digits) n ↔
    digits ≠ [] ∧ (∀ c ∈ digits, c.isDigit = true) ∧ Nat.ofDigitChars 10 digits 0 = n := by
  constructor
  · rintro ⟨digits', rfl | heq, hne, hall, hvalue⟩
    · exact absurd (hall '+' List.mem_cons_self) (by decide)
    · obtain rfl := (List.cons.inj heq).2
      exact ⟨hne, hall, hvalue⟩
  · exact fun hrest => ⟨digits, .inr rfl, hrest⟩

theorem not_denotes_nil : ¬ Denotes [] n := by
  rintro ⟨digits, rfl | heq, hne, -⟩
  · exact hne rfl
  · exact absurd heq (by simp)

theorem Denotes.x_notMem (h : Denotes text n) : 'x' ∉ text := by
  obtain ⟨digits, htext, -, hall, -⟩ := h
  have hdigits : 'x' ∉ digits := fun hmem => absurd (hall 'x' hmem) (by decide)
  rcases htext with rfl | rfl
  · exact hdigits
  · simpa using hdigits

theorem denotes_toDigits (n : Nat) : Denotes (Nat.toDigits 10 n) n :=
  ⟨Nat.toDigits 10 n, .inl rfl, Nat.toDigits_ne_nil,
    fun _ => Nat.isDigit_of_mem_toDigits (by decide) (by decide), Nat.ofDigitChars_ten_toDigits⟩

-- A number that has grown too large stays so, whatever digits follow.
theorem readDigits_eq_ok_iff (hvalue : value < Nat.pow 2 16) : readDigits value digits = .ok n ↔
    (∀ c ∈ digits, c.isDigit = true) ∧ Nat.ofDigitChars 10 digits value = n ∧ n < Nat.pow 2 16 := by
  induction digits generalizing value with
  | nil =>
      constructor
      · rintro ⟨⟩
        exact ⟨by simp, rfl, hvalue⟩
      · rintro ⟨-, rfl, -⟩
        rfl
  | cons c rest ih =>
      rw [readDigits, List.forall_mem_cons, Nat.ofDigitChars_cons]
      by_cases hdigit : c.isDigit = true
      · simp only [hdigit, ite_true, true_and]
        by_cases hroom : 10 * value + (c.toNat - '0'.toNat) < Nat.pow 2 16
        · rw [if_pos hroom]
          exact ih hroom
        · rw [if_neg hroom]
          have hle := le_ofDigitChars (10 * value + (c.toNat - '0'.toNat)) rest
          simp only [reduceCtorEq, false_iff, not_and]
          omega
      · simp [hdigit]

theorem read_cons {c : Char} (hc : c ≠ '+') (rest : List Char) :
    read (c :: rest) = readDigits 0 (c :: rest) := by
  unfold read
  split
  case h_1 heq => exact absurd heq (by simp)
  case h_2 heq => exact absurd (List.cons.inj heq).1 hc
  case h_3 heq => exact absurd (List.cons.inj heq).1 hc
  case h_4 => rfl

theorem read_eq_ok_iff : read text = .ok n ↔ Denotes text n ∧ n < Nat.pow 2 16 := by
  have hzero : 0 < Nat.pow 2 16 := by decide
  cases text with
  | nil => simp [read, not_denotes_nil]
  | cons c rest =>
      by_cases hc : c = '+'
      · subst hc
        cases rest with
        | nil => simp [read, denotes_plus]
        | cons d rest =>
            change readDigits 0 (d :: rest) = .ok n ↔ _
            rw [readDigits_eq_ok_iff hzero, denotes_plus]
            simp [and_assoc]
      · rw [read_cons hc, readDigits_eq_ok_iff hzero, denotes_cons hc, and_assoc]

theorem read_eq_ok_positive_iff : read text = .ok n ∧ n ≠ 0 ↔
    Denotes text n ∧ 1 ≤ n ∧ n ≤ 65535 := by
  have hlimit : Nat.pow 2 16 = 65536 := rfl
  have hbounds : n < Nat.pow 2 16 ∧ n ≠ 0 ↔ 1 ≤ n ∧ n ≤ 65535 := by omega
  rw [read_eq_ok_iff, and_assoc, hbounds]

theorem isWord_iff : IsWord text ↔ ∃ n, read text = .ok n := by
  simp only [read_eq_ok_iff, IsWord, and_comm]

theorem exists_error_iff : (∃ cause, read text = .error cause) ↔ ¬ IsWord text := by
  rw [isWord_iff]
  cases read text <;> simp

end Numeral

namespace WindowSize

open Numeral (Denotes IsWord)

variable {text left right : List Char}

-- The text has one `x`, with these parts on its two sides.
def Halves (text left right : List Char) : Prop :=
  text = left ++ 'x' :: right ∧ 'x' ∉ left ∧ 'x' ∉ right

theorem exists_halves (h : text.count 'x' = 1) : ∃ left right, Halves text left right := by
  have hmem : 'x' ∈ text := List.count_pos_iff.mp (by omega)
  obtain ⟨left, right, rfl, hleft⟩ := List.eq_append_cons_of_mem hmem
  rw [List.count_append, List.count_cons_self, List.count_eq_zero.mpr hleft] at h
  exact ⟨left, right, rfl, hleft, List.count_eq_zero.mp (by omega)⟩

-- What the two sides of the only `x` are read as
def parseHalves (left right : List Char) : Except SizeError WindowSize :=
  match Numeral.read left with
  | .error cause => .error (.columns cause)
  | .ok cols =>
    match Numeral.read right with
    | .error cause => .error (.rows cause)
    | .ok rows => if cols = 0 ∨ rows = 0 then .error .zero else .ok { rows, cols }

theorem parseChars_append (hleft : 'x' ∉ left) (right : List Char) :
    parseChars (left ++ 'x' :: right) =
      if right.contains 'x' then .error .format else parseHalves left right := by
  have hall : ∀ c ∈ left, (c != 'x') = true := by
    intro c hc
    simpa using fun heq : c = 'x' => hleft (heq ▸ hc)
  have htake : (left ++ 'x' :: right).takeWhile (· != 'x') = left := by
    rw [List.takeWhile_append_of_pos hall]
    simp
  have hdrop : (left ++ 'x' :: right).dropWhile (· != 'x') = 'x' :: right := by
    rw [List.dropWhile_append_of_pos hall]
    simp
  unfold parseChars
  rw [htake, hdrop]
  rfl

theorem Halves.parseChars (h : Halves text left right) :
    WindowSize.parseChars text = parseHalves left right := by
  obtain ⟨rfl, hleft, hright⟩ := h
  rw [parseChars_append hleft, if_neg (by simpa using hright)]

theorem parseChars_of_count (h : text.count 'x' ≠ 1) :
    WindowSize.parseChars text = .error .format := by
  by_cases hmem : 'x' ∈ text
  · obtain ⟨left, right, rfl, hleft⟩ := List.eq_append_cons_of_mem hmem
    rw [List.count_append, List.count_cons_self, List.count_eq_zero.mpr hleft] at h
    have hright : 'x' ∈ right := List.count_pos_iff.mp (by omega)
    rw [parseChars_append hleft, if_pos (by simpa using hright)]
  · have hdrop : text.dropWhile (· != 'x') = [] := by
      rw [List.dropWhile_eq_nil_iff]
      intro c hc
      simpa using fun heq : c = 'x' => hmem (heq ▸ hc)
    unfold WindowSize.parseChars
    rw [hdrop]

theorem parseHalves_ne_format (left right : List Char) :
    parseHalves left right ≠ .error .format := by
  unfold parseHalves
  split
  · simp
  · split
    · simp
    · split <;> simp

-- Whatever else is told of a text, it has one `x` then, and the rest is told of the two sides.
theorem parseChars_eq_iff {outcome : Except SizeError WindowSize}
    (hother : outcome ≠ .error .format) : parseChars text = outcome ↔
      ∃ left right, Halves text left right ∧ parseHalves left right = outcome := by
  constructor
  · intro hparse
    by_cases hcount : text.count 'x' = 1
    · obtain ⟨left, right, hhalves⟩ := exists_halves hcount
      exact ⟨left, right, hhalves, hhalves.parseChars.symm.trans hparse⟩
    · exact absurd (hparse.symm.trans (parseChars_of_count hcount)) hother
  · rintro ⟨left, right, hhalves, heq⟩
    exact hhalves.parseChars.trans heq

theorem exists_cause_iff (blame : NumeralError → SizeError)
    (hblame : ∀ cause, blame cause ≠ .format) :
    (∃ cause, WindowSize.parseChars text = .error (blame cause)) ↔
      ∃ left right, Halves text left right ∧
        ∃ cause, parseHalves left right = .error (blame cause) := by
  constructor
  · rintro ⟨cause, hparse⟩
    obtain ⟨left, right, hhalves, heq⟩ :=
      (parseChars_eq_iff (by simpa using hblame cause)).mp hparse
    exact ⟨left, right, hhalves, cause, heq⟩
  · rintro ⟨left, right, hhalves, cause, heq⟩
    exact ⟨cause, hhalves.parseChars.trans heq⟩

theorem parseChars_eq_format_iff : parseChars text = .error .format ↔ text.count 'x' ≠ 1 := by
  refine ⟨fun hparse hcount => ?_, parseChars_of_count⟩
  obtain ⟨left, right, hhalves⟩ := exists_halves hcount
  exact parseHalves_ne_format left right (hhalves.parseChars.symm.trans hparse)

theorem parseHalves_eq_ok_iff {size : WindowSize} : parseHalves left right = .ok size ↔
    (Denotes left size.cols ∧ 1 ≤ size.cols ∧ size.cols ≤ 65535) ∧
    (Denotes right size.rows ∧ 1 ≤ size.rows ∧ size.rows ≤ 65535) := by
  have hread : parseHalves left right = .ok size ↔
      (Numeral.read left = .ok size.cols ∧ size.cols ≠ 0) ∧
      (Numeral.read right = .ok size.rows ∧ size.rows ≠ 0) := by
    obtain ⟨rows, cols⟩ := size
    unfold parseHalves
    cases Numeral.read left with
    | error cause => simp
    | ok cols' =>
        cases Numeral.read right with
        | error cause => simp
        | ok rows' =>
            dsimp only
            split <;> simp [WindowSize.mk.injEq] <;> omega
  rw [hread, Numeral.read_eq_ok_positive_iff, Numeral.read_eq_ok_positive_iff]

theorem parseHalves_eq_columns_iff :
    (∃ cause, parseHalves left right = .error (.columns cause)) ↔ ¬ IsWord left := by
  rw [← Numeral.exists_error_iff]
  unfold parseHalves
  cases Numeral.read left with
  | error cause => simp
  | ok cols =>
      cases Numeral.read right with
      | error cause => simp
      | ok rows =>
          dsimp only
          split <;> simp

theorem parseHalves_eq_rows_iff :
    (∃ cause, parseHalves left right = .error (.rows cause)) ↔ IsWord left ∧ ¬ IsWord right := by
  rw [← Numeral.exists_error_iff, Numeral.isWord_iff]
  unfold parseHalves
  cases Numeral.read left with
  | error cause => simp
  | ok cols =>
      cases Numeral.read right with
      | error cause => simp
      | ok rows =>
          dsimp only
          split <;> simp

theorem parseHalves_eq_zero_iff : parseHalves left right = .error .zero ↔
    IsWord left ∧ IsWord right ∧ (Denotes left 0 ∨ Denotes right 0) := by
  have hzero (text : List Char) : Denotes text 0 ↔ Numeral.read text = .ok 0 := by
    rw [Numeral.read_eq_ok_iff]
    simp
  simp only [hzero, Numeral.isWord_iff]
  unfold parseHalves
  cases Numeral.read left with
  | error cause => simp
  | ok cols =>
      cases Numeral.read right with
      | error cause => simp
      | ok rows => simp [or_iff_not_imp_left]

theorem halves_repr (cols rows : Nat) :
    Halves (toString cols ++ "x" ++ toString rows).toList (Nat.toDigits 10 cols)
      (Nat.toDigits 10 rows) := by
  refine ⟨?_, (Numeral.denotes_toDigits cols).x_notMem, (Numeral.denotes_toDigits rows).x_notMem⟩
  simp [toString, Nat.repr]

-- The size of a terminal is two numbers of 16 bits, neither of them zero, on the two sides of the
-- only `x`. What is wrong with any other text is told in this order: the number of `x`, the first
-- number, the second, and then that one of them is zero.
theorem parse_exact :
    (∀ text,
      (∀ size, parse text = .ok size ↔ ∃ left right, Halves text.toList left right ∧
        (Denotes left size.cols ∧ 1 ≤ size.cols ∧ size.cols ≤ 65535) ∧
        (Denotes right size.rows ∧ 1 ≤ size.rows ∧ size.rows ≤ 65535)) ∧
      (parse text = .error .format ↔ text.toList.count 'x' ≠ 1) ∧
      ((∃ cause, parse text = .error (.columns cause)) ↔
        ∃ left right, Halves text.toList left right ∧ ¬ IsWord left) ∧
      ((∃ cause, parse text = .error (.rows cause)) ↔
        ∃ left right, Halves text.toList left right ∧ IsWord left ∧ ¬ IsWord right) ∧
      (parse text = .error .zero ↔ ∃ left right, Halves text.toList left right ∧
        IsWord left ∧ IsWord right ∧ (Denotes left 0 ∨ Denotes right 0))) ∧
    ∀ cols rows, 1 ≤ cols → cols ≤ 65535 → 1 ≤ rows → rows ≤ 65535 →
      parse (toString cols ++ "x" ++ toString rows) = .ok { rows, cols } := by
  have hok (text : String) (size : WindowSize) : parse text = .ok size ↔ _ :=
    @parseChars_eq_iff text.toList _ (by simp)
  refine ⟨fun text => ⟨?_, parseChars_eq_format_iff, ?_, ?_, ?_⟩, ?_⟩
  · intro size
    simp only [hok, parseHalves_eq_ok_iff]
  · simp only [parse, exists_cause_iff .columns (by simp), parseHalves_eq_columns_iff]
  · simp only [parse, exists_cause_iff .rows (by simp), parseHalves_eq_rows_iff]
  · rw [parse, parseChars_eq_iff (by simp)]
    simp only [parseHalves_eq_zero_iff]
  · intro cols rows hcols hcols' hrows hrows'
    rw [hok]
    refine ⟨_, _, halves_repr cols rows, parseHalves_eq_ok_iff.mpr ⟨?_, ?_⟩⟩
    · exact ⟨Numeral.denotes_toDigits cols, hcols, hcols'⟩
    · exact ⟨Numeral.denotes_toDigits rows, hrows, hrows'⟩

-- A sign and leading zeros, and the greatest size there is
theorem parse_exact_signed :
    parse "+080x00024" = .ok { rows := 24, cols := 80 } ∧
    parse "65535x65535" = .ok { rows := 65535, cols := 65535 } := by
  refine ⟨((parse_exact.1 _).1 _).mpr ⟨"+080".toList, "00024".toList, ?_, ?_, ?_⟩, ?_⟩
  · exact ⟨by decide, by decide, by decide⟩
  · exact ⟨⟨"080".toList, .inr rfl, by decide, by simp, by decide⟩, by decide, by decide⟩
  · exact ⟨⟨"00024".toList, .inl rfl, by decide, by simp, by decide⟩, by decide, by decide⟩
  · exact parse_exact.2 65535 65535 (by decide) (by decide) (by decide) (by decide)

end WindowSize

end TerminalRelay
