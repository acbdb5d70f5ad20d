import TerminalRelay.Json.Skip
import TerminalRelay.Proofs.Json.Grammar
import Mathlib.Data.List.DropRight

namespace TerminalRelay.Json

variable {c e : Char} {text meant rest : List Char}

-- Strings

theorem readString_quote (rest : List Char) : readString ('"' :: rest) = .ok ([], rest) := by
  rw [readString.eq_def]
  rfl

theorem readString_plain (hquote : c ≠ '"') (hcontrol : ¬ c < ' ') (hbackslash : c ≠ '\\')
    (rest : List Char) : readString (c :: rest) = prepend c (readString rest) := by
  rw [readString.eq_def]
  dsimp only
  rw [if_neg hquote, if_neg hcontrol, if_pos hbackslash]

theorem ne_of_unescape? (hletter : unescape? e = some c) : e ≠ 'u' := by
  rintro rfl
  simp [unescape?] at hletter

theorem readString_letter (hletter : unescape? e = some c) (rest : List Char) :
    readString ('\\' :: e :: rest) = prepend c (readString rest) := by
  rw [readString.eq_def]
  dsimp only
  rw [if_neg (by decide), if_neg (by decide), if_neg (by decide), if_pos (ne_of_unescape? hletter),
    hletter]

theorem readString_unit {h₁ h₂ h₃ h₄ : Char} {unit : Nat} (hunit : hexUnit? h₁ h₂ h₃ h₄ = some unit)
    (hchar : unit.isValidChar) (rest : List Char) :
    readString ('\\' :: 'u' :: h₁ :: h₂ :: h₃ :: h₄ :: rest) =
      prepend (Char.ofNat unit) (readString rest) := by
  have hsurrogate : unit < 0xd800 ∨ 0xdfff < unit := hchar.imp id And.left
  have htrailing : isTrailing unit = false := by
    simp [isTrailing]
    omega
  have hleading : isLeading unit = false := by
    simp [isLeading]
    omega
  rw [readString.eq_def]
  dsimp only
  rw [if_neg (by decide), if_neg (by decide), if_neg (by decide), if_neg (by decide), hunit]
  simp [htrailing, hleading]

theorem skipString_quote (rest : List Char) : skipString ('"' :: rest) = .ok rest := by
  rw [skipString.eq_def]
  rfl

theorem skipString_plain (hquote : c ≠ '"') (hcontrol : ¬ c < ' ') (hbackslash : c ≠ '\\')
    (rest : List Char) : skipString (c :: rest) = skipString rest := by
  rw [skipString.eq_def]
  dsimp only
  rw [if_neg hquote, if_neg hcontrol, if_pos hbackslash]

theorem skipString_letter (hletter : unescape? e = some c) (rest : List Char) :
    skipString ('\\' :: e :: rest) = skipString rest := by
  rw [skipString.eq_def]
  simp [ne_of_unescape? hletter, hletter]

theorem skipString_unit {h₁ h₂ h₃ h₄ : Char} {unit : Nat} (hunit : hexUnit? h₁ h₂ h₃ h₄ = some unit)
    (rest : List Char) :
    skipString ('\\' :: 'u' :: h₁ :: h₂ :: h₃ :: h₄ :: rest) = skipString rest := by
  rw [skipString.eq_def]
  simp [hunit]

theorem hexDigit?_of_isHexDigit {value : Nat} (h : IsHexDigit value c) :
    hexDigit? c = some value := by
  have hall : ∀ value < 16, hexDigit? value.digitChar = some value ∧
      hexDigit? value.digitChar.toUpper = some value := by decide
  rcases h with ⟨hlt, rfl | rfl⟩
  · exact (hall value hlt).1
  · exact (hall value hlt).2

theorem IsUnit.exists_digits {unit : Nat} {digits : List Char} (h : IsUnit unit digits) :
    ∃ w x y z, digits = [w, x, y, z] ∧ hexUnit? w x y z = some unit := by
  obtain ⟨hw, hx, hy, hz⟩ := h
  refine ⟨_, _, _, _, rfl, ?_⟩
  simp only [hexUnit?, hexDigit?_of_isHexDigit hw, hexDigit?_of_isHexDigit hx,
    hexDigit?_of_isHexDigit hy, hexDigit?_of_isHexDigit hz]
  refine congrArg some ?_
  omega

theorem unescape?_of_mem_letters (h : (e, c) ∈ letters) : unescape? e = some c := by
  have hall : ∀ letter ∈ letters, unescape? letter.1 = some letter.2 := by decide
  exact hall (e, c) h

theorem readString_pair {leading trailing : List Char} {high low : Nat}
    (hleading : IsUnit (0xd800 + high) leading) (htrailing : IsUnit (0xdc00 + low) trailing)
    (hhigh : high < 0x400) (hlow : low < 0x400) (rest : List Char) :
    readString ('\\' :: 'u' :: (leading ++ '\\' :: 'u' :: (trailing ++ rest))) =
      prepend (Char.ofNat (0x10000 + 0x400 * high + low)) (readString rest) := by
  obtain ⟨h₁, h₂, h₃, h₄, rfl, hfirst⟩ := hleading.exists_digits
  obtain ⟨l₁, l₂, l₃, l₄, rfl, hsecond⟩ := htrailing.exists_digits
  have hfirstTrailing : isTrailing (0xd800 + high) = false := by
    simp [isTrailing]
    omega
  have hfirstLeading : isLeading (0xd800 + high) = true := by
    simp [isLeading]
    omega
  have hsecondTrailing : isTrailing (0xdc00 + low) = true := by
    simp [isTrailing]
    omega
  rw [readString.eq_def]
  simp [hfirst, hsecond, hfirstTrailing, hfirstLeading, hsecondTrailing, ofSurrogates]

-- A string is read as the characters it means.
theorem Spells.readString_append (h : Spells meant text) (rest : List Char) :
    readString (text ++ '"' :: rest) = .ok (meant, rest) := by
  induction h with
  | nil => exact readString_quote rest
  | plain hplain _ ih =>
      obtain ⟨hcontrol, hquote, hbackslash⟩ := hplain
      rw [List.cons_append, readString_plain hquote (Char.not_lt.mpr hcontrol) hbackslash, ih]
      rfl
  | letter hletter _ ih =>
      rw [List.cons_append, List.cons_append, readString_letter (unescape?_of_mem_letters hletter),
        ih]
      rfl
  | @unit c digits meant text hunit _ ih =>
      obtain ⟨w, x, y, z, rfl, hread⟩ := hunit.exists_digits
      have hchar : c.toNat.isValidChar := c.valid
      simp only [List.cons_append, List.nil_append]
      rw [readString_unit hread hchar, ih, Char.ofNat_toNat]
      rfl
  | @pair c high low leading trailing meant text hcode hhigh hlow hleading htrailing _ ih =>
      simp only [List.cons_append, List.append_assoc]
      rw [readString_pair hleading htrailing hhigh hlow, ih, ← hcode, Char.ofNat_toNat]
      rfl

theorem IsString.skipString_append (h : IsString text) (rest : List Char) :
    skipString (text ++ '"' :: rest) = .ok rest := by
  induction h with
  | nil => exact skipString_quote rest
  | plain hplain _ ih =>
      obtain ⟨hcontrol, hquote, hbackslash⟩ := hplain
      rw [List.cons_append, skipString_plain hquote (Char.not_lt.mpr hcontrol) hbackslash, ih]
  | letter hletter _ ih =>
      rw [List.cons_append, List.cons_append, skipString_letter (unescape?_of_mem_letters hletter),
        ih]
  | unit hunit _ ih =>
      obtain ⟨w, x, y, z, rfl, hread⟩ := hunit.exists_digits
      simp only [List.cons_append, List.nil_append]
      rw [skipString_unit hread, ih]

theorem isHexDigit_hexDigit {value : Nat} (h : value < 16) :
    IsHexDigit value (hexDigit value) := by
  have hall : ∀ value < 16, hexDigit value = value.digitChar := by decide
  exact ⟨h, .inl (hall value h)⟩

-- A control character is written as a unit, which is its code point.
theorem isUnit_control (h : c < ' ') :
    IsUnit c.toNat ['0', '0', hexDigit (c.toNat / 16), hexDigit (c.toNat % 16)] := by
  have hlt : c.toNat < 0x20 := h
  have hzero : IsHexDigit 0 '0' := isHexDigit_hexDigit (by decide)
  have hunit := IsUnit.digits hzero hzero
    (isHexDigit_hexDigit (show c.toNat / 16 < 16 by omega))
    (isHexDigit_hexDigit (show c.toNat % 16 < 16 by omega))
  have hcode : 0x1000 * 0 + 0x100 * 0 + 0x10 * (c.toNat / 16) + c.toNat % 16 = c.toNat := by omega
  rwa [hcode] at hunit

theorem Spells.cons_escape (h : Spells meant text) (c : Char) :
    Spells (c :: meant) (escape c ++ text) := by
  have hletter {e : Char} (hmem : (e, c) ∈ letters) : Spells (c :: meant) (['\\', e] ++ text) :=
    .letter hmem h
  unfold escape
  split_ifs with hquote hbackslash hbackspace htab hnewline hpage hreturn hcontrol
  · exact hletter (by simp [hquote, letters])
  · exact hletter (by simp [hbackslash, letters])
  · exact hletter (by simp [hbackspace, letters])
  · exact hletter (by simp [htab, letters])
  · exact hletter (by simp [hnewline, letters])
  · exact hletter (by simp [hpage, letters])
  · exact hletter (by simp [hreturn, letters])
  · exact .unit (isUnit_control hcontrol) h
  · exact .plain ⟨Char.not_lt.mp hcontrol, hquote, hbackslash⟩ h

theorem spells_escaped (text : List Char) : Spells text (text.flatMap escape) := by
  induction text with
  | nil => exact .nil
  | cons c text ih => exact ih.cons_escape c

theorem readString_escaped (text rest : List Char) :
    readString (text.flatMap escape ++ '"' :: rest) = .ok (text, rest) :=
  (spells_escaped text).readString_append rest

-- Names

theorem readName_append (name rest : List Char) : readName name (name ++ rest) = .ok rest := by
  induction name with
  | nil => rfl
  | cons c name ih => rw [List.cons_append, readName, if_pos rfl, ih]

-- Blanks

theorem dropBlanks_cons (h : isBlank c = false) (rest : List Char) :
    dropBlanks (c :: rest) = c :: rest :=
  List.dropWhile_cons_of_neg (by simp [h])

theorem dropBlanks_dropBlanks (text : List Char) : dropBlanks (dropBlanks text) = dropBlanks text :=
  List.dropWhile_idempotent isBlank text

theorem dropBlanks_indent (depth : Nat) (rest : List Char) :
    dropBlanks (indent depth ++ rest) = dropBlanks rest := by
  apply List.dropWhile_append_of_pos
  intro c hmem
  rw [indent, List.mem_cons, List.mem_replicate] at hmem
  rcases hmem with rfl | ⟨-, rfl⟩ <;> rfl

theorem isBlank_iff : isBlank c = true ↔ c ∈ [' ', '\n', '\t', '\r'] := by
  simp [isBlank, or_assoc]

theorem blanks_nil : Blanks [] := by decide

theorem Blanks.dropBlanks_eq_nil {blanks : List Char} (h : Blanks blanks) :
    dropBlanks blanks = [] :=
  List.dropWhile_eq_nil_iff.mpr fun c hc => isBlank_iff.mpr (h c hc)

theorem Blanks.dropBlanks_append {blanks : List Char} (h : Blanks blanks) (rest : List Char) :
    dropBlanks (blanks ++ rest) = dropBlanks rest :=
  List.dropWhile_append_of_pos fun c hc => isBlank_iff.mpr (h c hc)

-- Numbers

theorem ne_of_isDigit {d : Char} (hc : c.isDigit = true) (hd : d.isDigit = false) : c ≠ d := by
  rintro rfl
  exact absurd (hc.symm.trans hd) (by decide)

theorem isBlank_of_isDigit (hc : c.isDigit = true) : isBlank c = false := by
  simp [isBlank, ne_of_isDigit hc]

theorem isDigit_of_mem_digits {value : Nat} (h : c ∈ digits value) : c.isDigit = true :=
  Nat.isDigit_of_mem_toDigits (by decide) (by decide) h

theorem decimal_digits (value : Nat) : decimal (digits value) = value :=
  Nat.ofDigitChars_ten_toDigits

theorem digits_ne_nil (value : Nat) : digits value ≠ [] :=
  Nat.toDigits_ne_nil

-- Only zero itself begins with the digit zero.
theorem digits_of_zero_cons {value : Nat} (h : digits value = '0' :: rest) : rest = [] := by
  induction value using Nat.strongRecOn generalizing rest with
  | ind value ih =>
      by_cases hlt : value < 10
      · rw [digits, Nat.toDigits_of_lt_base hlt] at h
        exact (List.cons.inj h).2.symm
      · have htens : digits value = digits (value / 10) ++ [(value % 10).digitChar] :=
          Nat.toDigits_of_base_le (by decide) (Nat.le_of_not_lt hlt)
        obtain ⟨c, more, hcons⟩ := List.exists_cons_of_ne_nil (digits_ne_nil (value / 10))
        rw [htens, hcons, List.cons_append] at h
        obtain ⟨rfl, -⟩ := List.cons.inj h
        have hnil := ih (value / 10) (by omega) hcons
        have hzero := decimal_digits (value / 10)
        rw [hcons, hnil] at hzero
        exact absurd hzero (by simp [decimal, digitValue]; omega)

-- What may stand behind a number, as it would otherwise be taken for a part of it
def EndsNumber (rest : List Char) : Prop :=
  ∀ c ∈ rest.head?, c.isDigit = false ∧ c ≠ '.' ∧ c ≠ 'e' ∧ c ≠ 'E'

theorem endsNumber_cons (hdigit : c.isDigit = false) (hc : c ∉ ['.', 'e', 'E'])
    (rest : List Char) : EndsNumber (c :: rest) := by
  rintro d ⟨⟩
  simpa [hdigit] using hc

theorem endsNumber_comma (rest : List Char) : EndsNumber (',' :: rest) :=
  endsNumber_cons rfl (by decide) rest

theorem endsNumber_bracket (rest : List Char) : EndsNumber (']' :: rest) :=
  endsNumber_cons rfl (by decide) rest

theorem endsNumber_brace (rest : List Char) : EndsNumber ('\x7d' :: rest) :=
  endsNumber_cons rfl (by decide) rest

theorem isWhole_digits (value : Nat) : IsWhole (digits value) := by
  refine ⟨⟨digits_ne_nil value, fun c => isDigit_of_mem_digits⟩, fun hzero => ?_⟩
  obtain ⟨more, hmore⟩ := List.head?_eq_some_iff.mp hzero
  rw [hmore, digits_of_zero_cons hmore]

theorem takeDigits_append {digits : List Char} (hall : ∀ c ∈ digits, c.isDigit = true)
    (hrest : ∀ c ∈ rest.head?, c.isDigit = false) :
    takeDigits (digits ++ rest) = (digits, rest) := by
  have hnone : rest.takeWhile Char.isDigit = [] ∧ rest.dropWhile Char.isDigit = rest := by
    cases rest with
    | nil => exact ⟨rfl, rfl⟩
    | cons c rest =>
        have hc : c.isDigit = false := hrest c rfl
        simp [hc]
  rw [takeDigits, List.takeWhile_append_of_pos hall, List.dropWhile_append_of_pos hall, hnone.1,
    hnone.2, List.append_nil]

theorem needDigits_append {digits : List Char} (h : IsDigits digits)
    (hrest : ∀ c ∈ rest.head?, c.isDigit = false) :
    needDigits (digits ++ rest) = .ok (digits, rest) := by
  obtain ⟨c, more, hcons⟩ := List.exists_cons_of_ne_nil h.1
  rw [needDigits, takeDigits_append h.2 hrest, hcons]

theorem needDigits_cons_of_not_digit (hc : c.isDigit = false) (rest : List Char) :
    needDigits (c :: rest) = .error .malformed := by
  simp [needDigits, takeDigits, hc]

theorem readWhole_append {whole : List Char} (h : IsWhole whole)
    (hrest : ∀ c ∈ rest.head?, c.isDigit = false) :
    readWhole (whole ++ rest) = .ok (whole, rest) := by
  rw [readWhole, needDigits_append h.1 hrest]
  dsimp only [bind, Except.bind]
  split
  case h_1 c more rest' heq =>
    obtain ⟨rfl, -⟩ := Prod.mk.inj heq
    exact absurd (h.2 rfl) (by simp)
  case h_2 => rfl

theorem readFraction_of_ends (h : EndsNumber rest) : readFraction rest = .ok ([], rest) := by
  cases rest with
  | nil => rfl
  | cons c rest =>
      have hpoint : c ≠ '.' := (h c rfl).2.1
      unfold readFraction
      split
      case h_1 heq => exact absurd (List.cons.inj heq).1 hpoint
      case h_2 => rfl

theorem readExponent_of_ends (h : EndsNumber rest) :
    readExponent rest = .ok ((false, []), rest) := by
  cases rest with
  | nil => rfl
  | cons c rest =>
      obtain ⟨-, -, hlower, hupper⟩ := h c rfl
      rw [readExponent.eq_def]
      dsimp only
      rw [if_neg (by simp [hlower, hupper])]
      rfl

-- A sign is told by the digit it takes the place of.
theorem readNumberText_parts {sign start whole afterWhole fraction afterFraction : List Char}
    {shrinks : Bool} {exponent : List Char} (hsign : sign ∈ [[], ['-']])
    (hwhole : readWhole start = .ok (whole, afterWhole))
    (hfraction : readFraction afterWhole = .ok (fraction, afterFraction))
    (hexponent : readExponent afterFraction = .ok ((shrinks, exponent), rest)) :
    readNumberText (sign ++ start) =
      .ok ({ negative := !sign.isEmpty, whole, fraction, shrinks, exponent }, rest) := by
  have hminus (tail : List Char) : start ≠ '-' :: tail := by
    rintro rfl
    rw [readWhole, needDigits_cons_of_not_digit rfl] at hwhole
    cases hwhole
  unfold readNumberText
  split
  next negative unsigned hsplit =>
  obtain ⟨rfl, rfl⟩ : negative = !sign.isEmpty ∧ unsigned = start := by
    simp only [List.mem_cons, List.not_mem_nil, or_false] at hsign
    rcases hsign with rfl | rfl
    · split at hsplit
      case h_1 tail heq => exact absurd heq (hminus tail)
      case h_2 => exact ⟨(Prod.mk.inj hsplit).1.symm, (Prod.mk.inj hsplit).2.symm⟩
    · exact ⟨(Prod.mk.inj hsplit).1.symm, (Prod.mk.inj hsplit).2.symm⟩
  change (readWhole unsigned >>= _) = _
  rw [hwhole]
  change (readFraction afterWhole >>= _) = _
  rw [hfraction]
  change (readExponent afterFraction >>= _) = _
  rw [hexponent]
  rfl

theorem readNumberText_digits (value : Nat) (h : EndsNumber rest) :
    readNumberText (digits value ++ rest) =
      .ok ({ negative := false, whole := digits value, fraction := [], shrinks := false,
             exponent := [] }, rest) :=
  readNumberText_parts List.mem_cons_self
    (readWhole_append (isWhole_digits value) fun c hc => (h c hc).1) (readFraction_of_ends h)
    (readExponent_of_ends h)

theorem Blanks.endsNumber {blanks : List Char} (h : Blanks blanks) (hrest : EndsNumber rest) :
    EndsNumber (blanks ++ rest) := by
  cases blanks with
  | nil => exact hrest
  | cons c blanks =>
      rintro d ⟨⟩
      have hblank := h c List.mem_cons_self
      simp only [List.mem_cons, List.not_mem_nil, or_false] at hblank
      rcases hblank with rfl | rfl | rfl | rfl <;> decide

theorem IsFraction.readFraction_append {fraction : List Char} (h : IsFraction fraction)
    (hrest : ∀ c ∈ rest.head?, c.isDigit = false ∧ c ≠ '.') :
    ∃ digits, readFraction (fraction ++ rest) = .ok (digits, rest) := by
  cases h with
  | none =>
      refine ⟨[], ?_⟩
      rw [List.nil_append]
      unfold readFraction
      split
      case h_1 tail => exact absurd rfl (hrest '.' rfl).2
      case h_2 => rfl
  | point hdigits => exact ⟨_, needDigits_append hdigits fun c hc => (hrest c hc).1⟩

theorem readExponent_power {sign start digits : List Char} (he : e = 'e' ∨ e = 'E')
    (hsign : sign ∈ [[], ['-'], ['+']]) (hneed : needDigits start = .ok (digits, rest)) :
    readExponent (e :: (sign ++ start)) = .ok ((sign = ['-'], digits), rest) := by
  rw [readExponent.eq_def]
  dsimp only
  rw [if_pos he]
  simp only [List.mem_cons, List.not_mem_nil, or_false] at hsign
  rcases hsign with rfl | rfl | rfl
  · rw [List.nil_append]
    split
    case h_1 tail =>
      rw [needDigits_cons_of_not_digit rfl] at hneed
      cases hneed
    case h_2 tail =>
      rw [needDigits_cons_of_not_digit rfl] at hneed
      cases hneed
    case h_3 => simp [hneed, bind, Except.bind, pure, Except.pure]
  · simp [hneed, bind, Except.bind, pure, Except.pure]
  · simp [hneed, bind, Except.bind, pure, Except.pure]

theorem IsExponent.readExponent_append {exponent : List Char} (h : IsExponent exponent)
    (hrest : EndsNumber rest) :
    ∃ shrinks digits, readExponent (exponent ++ rest) = .ok ((shrinks, digits), rest) := by
  cases h with
  | none => exact ⟨false, [], readExponent_of_ends hrest⟩
  | @power e sign digits he hsign hdigits =>
      have hneed := needDigits_append hdigits fun c hc => (hrest c hc).1
      rw [List.cons_append, List.append_assoc]
      exact ⟨_, digits, readExponent_power (by simpa using he) hsign hneed⟩

-- What may stand behind the whole part of a number, and behind its fraction

theorem IsExponent.head_append {exponent : List Char} (h : IsExponent exponent)
    (hrest : EndsNumber rest) :
    ∀ c ∈ (exponent ++ rest).head?, c.isDigit = false ∧ c ≠ '.' := by
  cases h with
  | none => exact fun c hc => ⟨(hrest c hc).1, (hrest c hc).2.1⟩
  | power he =>
      simp only [List.mem_cons, List.not_mem_nil, or_false] at he
      rintro c ⟨⟩
      rcases he with rfl | rfl <;> decide

theorem IsFraction.head_append {fraction : List Char} (h : IsFraction fraction)
    (hrest : ∀ c ∈ rest.head?, c.isDigit = false) :
    ∀ c ∈ (fraction ++ rest).head?, c.isDigit = false := by
  cases h with
  | none => exact hrest
  | point =>
      rintro c ⟨⟩
      rfl

theorem IsNumber.skipNumber_append (h : IsNumber text) (hrest : EndsNumber rest) :
    skipNumber (text ++ rest) = .ok rest := by
  obtain ⟨hsign, hwhole, hfraction, hexponent⟩ := h
  have hafter := hexponent.head_append hrest
  obtain ⟨shrinks, exponent, hreadExponent⟩ := hexponent.readExponent_append hrest
  obtain ⟨fraction, hreadFraction⟩ := hfraction.readFraction_append hafter
  have hreadWhole := readWhole_append hwhole (hfraction.head_append fun c hc => (hafter c hc).1)
  simp only [List.append_assoc]
  rw [skipNumber, readNumberText_parts hsign hreadWhole hreadFraction hreadExponent]

theorem IsNumber.exists_cons (h : IsNumber text) :
    ∃ c more, text = c :: more ∧ (c = '-' ∨ c.isDigit = true) := by
  obtain ⟨hsign, hwhole, -, -⟩ := h
  obtain ⟨c, more, rfl⟩ := List.exists_cons_of_ne_nil hwhole.1.1
  simp only [List.mem_cons, List.not_mem_nil, or_false] at hsign
  rcases hsign with rfl | rfl
  · exact ⟨c, _, rfl, .inr (hwhole.1.2 c List.mem_cons_self)⟩
  · exact ⟨'-', _, rfl, .inl rfl⟩

end TerminalRelay.Json
