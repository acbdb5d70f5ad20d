import TerminalRelay.Proofs.Byte
import TerminalRelay.Proofs.Config.Settings
import TerminalRelay.Proofs.Json.Skipped

namespace TerminalRelay

open Json

-- How a value is written. A natural number has no other form in JSON than its decimal digits
def Setting.write : (setting : Setting) → setting.Value → List Char
  | lineCapacity, value => digits value
  | escapeCapacity, value => digits value
  | debugCapacity, value => digits value
  | forwardToViewers, value => truth value

namespace Config

-- A field of an object: a value for a setting, or something under a key that no setting has
inductive Entry where
  | known (setting : Setting) (value : setting.Value)
  | other (key : List Char) (unknown : ∀ setting : Setting, setting.key.toList ≠ key)

namespace Entry

def key : Entry → List Char
  | known setting _ => setting.key.toList
  | other key _ => key

def setting? : Entry → Option Setting
  | known setting _ => some setting
  | other _ _ => none

def Writes : Entry → List Char → Prop
  | known setting value, text => setting.Fits value ∧ text = setting.write value
  | other _ _, text => Derives .value text

def apply (settings : Settings) : Entry → Settings
  | known setting value => settings.set setting value
  | other _ _ => settings

end Entry

-- A field as it is written: blanks may stand around its key and around its value
inductive Field : Entry → List Char → Prop
  | written {entry : Entry} {before key middle gap value after : List Char} :
      Blanks before → Spells entry.key key → Blanks middle → Blanks gap → entry.Writes value →
      Blanks after →
      Field entry (before ++ '"' :: (key ++ '"' :: (middle ++ ':' :: (gap ++ (value ++ after)))))

inductive Fields : List Entry → List Char → Prop
  | last {entry : Entry} {text : List Char} : Field entry text → Fields [entry] text
  | more {entry : Entry} {entries : List Entry} {text rest : List Char} :
      Field entry text → Fields entries rest → Fields (entry :: entries) (text ++ ',' :: rest)

-- A whole text that is one object with these fields
inductive Document : List Entry → List Char → Prop
  | empty {before gap after : List Char} : Blanks before → Blanks gap → Blanks after →
      Document [] (before ++ '\x7b' :: (gap ++ '\x7d' :: after))
  | fields {entries : List Entry} {before text after : List Char} :
      Blanks before → Fields entries text → Blanks after →
      Document entries (before ++ '\x7b' :: (text ++ '\x7d' :: after))

end Config

variable {setting : Setting} {settings : Settings} {entry : Entry} {entries : List Entry}
  {text rest : List Char}

namespace Json

-- Digits are absorbed down to the last as long as the number has 64 bits.
theorem absorb_eq {significand : Nat} {digits : List Char}
    (h : Nat.ofDigitChars 10 digits significand < Nat.pow 2 64) :
    absorb significand digits = (Nat.ofDigitChars 10 digits significand, 0) := by
  induction digits generalizing significand with
  | nil => rfl
  | cons c digits ih =>
      rw [Nat.ofDigitChars_cons] at h ⊢
      have hlonger : 10 * significand + digitValue c < Nat.pow 2 64 :=
        Nat.lt_of_le_of_lt (le_ofDigitChars _ digits) h
      rw [absorb, if_pos hlonger]
      exact ih h

theorem absorb_digits {value : Nat} (h : value < Nat.pow 2 64) :
    absorb 0 (digits value) = (value, 0) := by
  have hvalue : Nat.ofDigitChars 10 (digits value) 0 = value := Nat.ofDigitChars_ten_toDigits
  rw [absorb_eq (by rwa [hvalue]), hvalue]

-- Rounding takes the least eleven bits at most.
theorem NumberText.roundDouble_le {value : Nat} (h : value < Nat.pow 2 64) :
    roundDouble value ≤ value + 2048 := by
  have hlog : value.log2 - 52 ≤ 11 := by
    by_cases hzero : value = 0
    · simp [hzero]
    · have hlt := (Nat.log2_lt hzero).mpr h
      omega
  have hunit : 2 ^ (value.log2 - 52) ≤ 2 ^ 11 := Nat.pow_le_pow_right (by decide) hlog
  have hbelow := Nat.div_mul_le_self value (2 ^ (value.log2 - 52))
  unfold roundDouble
  dsimp only [Nat.pow_eq]
  split <;> omega

theorem readNumber_digits {value : Nat} (h : value < Nat.pow 2 64) (hrest : EndsNumber rest) :
    readNumber (digits value ++ rest) = .ok (some value, rest) := by
  have hbound : Nat.pow 2 64 + 2048 < NumberText.doubleBound := by decide +kernel
  have hround := NumberText.roundDouble_le h
  have hone : NumberText.roundDouble 1 = 1 := by decide
  have hfinite : ¬ NumberText.doubleBound ≤ NumberText.roundDouble value := by omega
  rw [readNumber, readNumberText_digits value hrest]
  simp [bind, Except.bind, pure, Except.pure, NumberText.overflows, NumberText.scaled,
    NumberText.natural?, absorb_digits h, absorb, decimal, hone, hfinite]

end Json

-- Values of settings

theorem readCapacity_dropBlanks (text : List Char) :
    readCapacity (dropBlanks text) = readCapacity text := by
  rw [readCapacity, readCapacity, dropBlanks_dropBlanks]

theorem readTruth_dropBlanks (text : List Char) : readTruth (dropBlanks text) = readTruth text := by
  rw [readTruth, readTruth, dropBlanks_dropBlanks]

theorem Setting.read_dropBlanks (setting : Setting) (text : List Char) :
    setting.read (dropBlanks text) = setting.read text := by
  cases setting with
  | lineCapacity => exact readCapacity_dropBlanks text
  | escapeCapacity => exact readCapacity_dropBlanks text
  | debugCapacity => exact readCapacity_dropBlanks text
  | forwardToViewers => exact readTruth_dropBlanks text

theorem readCapacity_digits {value : Nat} (h : value < Nat.pow 2 64) (hrest : EndsNumber rest) :
    readCapacity (digits value ++ rest) = .ok (value, rest) := by
  have hread := readNumber_digits h hrest
  obtain ⟨c, more, hcons⟩ := List.exists_cons_of_ne_nil (digits_ne_nil value)
  have hdigit : c.isDigit = true := isDigit_of_mem_digits (hcons ▸ List.mem_cons_self)
  rw [hcons, List.cons_append] at hread ⊢
  rw [readCapacity, dropBlanks_cons (isBlank_of_isDigit hdigit)]
  dsimp only
  rw [if_pos (.inr hdigit), hread]

theorem readTruth_truth (value : Bool) (rest : List Char) :
    readTruth (truth value ++ rest) = .ok (value, rest) := by
  cases value <;> rfl

theorem Setting.read_write {value : setting.Value} (h : setting.Fits value)
    (hrest : EndsNumber rest) : setting.read (setting.write value ++ rest) = .ok (value, rest) := by
  cases setting with
  | lineCapacity => exact readCapacity_digits h hrest
  | escapeCapacity => exact readCapacity_digits h hrest
  | debugCapacity => exact readCapacity_digits h hrest
  | forwardToViewers => exact readTruth_truth value rest

-- Keys

theorem Setting.ofKey?_key (setting : Setting) : ofKey? setting.key.toList = some setting := by
  cases setting <;> decide

theorem Setting.ofKey?_eq_none {key : List Char}
    (h : ∀ setting : Setting, setting.key.toList ≠ key) : ofKey? key = none :=
  List.find?_eq_none.mpr fun setting _ => by simp [h setting]

theorem Settings.afterColon_append {middle : List Char} (h : Blanks middle) (rest : List Char) :
    afterColon (middle ++ ':' :: rest) = .ok rest := by
  rw [afterColon, h.dropBlanks_append, dropBlanks_cons rfl]
  rfl

namespace Config

-- The value of a field is read, or passed over, up to the blanks behind it.
theorem Entry.Writes.readField {middle gap value after : List Char} (h : entry.Writes value)
    (hmiddle : Blanks middle) (hgap : Blanks gap) (hafter : Blanks after)
    (hnew : ∀ setting ∈ entry.setting?, settings.names setting = false)
    (hrest : EndsNumber rest) :
    ∃ behind,
      settings.readField entry.key (middle ++ ':' :: (gap ++ (value ++ (after ++ rest)))) =
        .ok (entry.apply settings, behind) ∧
      dropBlanks behind = dropBlanks rest := by
  have hends : EndsNumber (after ++ rest) := hafter.endsNumber hrest
  cases entry with
  | known setting found =>
      obtain ⟨hfits, rfl⟩ := h
      have hread : setting.read (gap ++ (setting.write found ++ (after ++ rest))) =
          .ok (found, after ++ rest) := by
        rw [← setting.read_dropBlanks, hgap.dropBlanks_append, setting.read_dropBlanks]
        exact Setting.read_write hfits hends
      refine ⟨after ++ rest, ?_, hafter.dropBlanks_append rest⟩
      rw [Settings.readField, Entry.key, setting.ofKey?_key]
      dsimp only
      rw [hnew setting rfl, Settings.afterColon_append hmiddle]
      simp [Except.bind, Settings.readValue_eq, hread, Except.map, Entry.apply]
  | other key unknown =>
      have helement : Derives .element (gap ++ (value ++ after)) := .element hgap h hafter
      obtain ⟨behind, hskip, hbehind⟩ := helement.skipValue_append hrest
      rw [List.append_assoc, List.append_assoc] at hskip
      refine ⟨behind, ?_, hbehind⟩
      rw [Settings.readField, Entry.key, Setting.ofKey?_eq_none unknown,
        Settings.afterColon_append hmiddle]
      simp [Except.bind, hskip, Except.map, Entry.apply]

-- No setting is listed twice, nor one that has been named before
structure Fresh (settings : Settings) (entries : List Entry) : Prop where
  nodup : (entries.filterMap Entry.setting?).Nodup
  unnamed : ∀ setting ∈ entries.filterMap Entry.setting?, settings.names setting = false

theorem Fresh.head (h : Fresh settings (entry :: entries)) :
    ∀ setting ∈ entry.setting?, settings.names setting = false := by
  intro setting hsetting
  exact h.unnamed setting (List.mem_filterMap.mpr ⟨entry, List.mem_cons_self, hsetting⟩)

theorem Fresh.tail (h : Fresh settings (entry :: entries)) :
    Fresh (entry.apply settings) entries := by
  obtain ⟨hnodup, hunnamed⟩ := h
  cases entry with
  | other key unknown => exact ⟨hnodup, hunnamed⟩
  | known setting value =>
      obtain ⟨hnot, hothers⟩ := List.nodup_cons.mp hnodup
      refine ⟨hothers, fun other hother => ?_⟩
      have hne : other ≠ setting := ne_of_mem_of_not_mem hother hnot
      have hunnamedOther := hunnamed other (List.mem_cons_of_mem _ hother)
      rw [Settings.names_eq] at hunnamedOther ⊢
      rwa [Entry.apply, Settings.get?_set_of_ne hne]

-- A field is read up to the blanks behind it.
theorem Field.read (h : Field entry text)
    (hnew : ∀ setting ∈ entry.setting?, settings.names setting = false)
    (hrest : EndsNumber rest) :
    ∃ quoted colon behind, dropBlanks (text ++ rest) = '"' :: quoted ∧
      readString quoted = .ok (entry.key, colon) ∧
      settings.readField entry.key colon = .ok (entry.apply settings, behind) ∧
      dropBlanks behind = dropBlanks rest := by
  obtain ⟨hbefore, hkey, hmiddle, hgap, hwrites, hafter⟩ := h
  obtain ⟨behind, hread, hbehind⟩ := hwrites.readField hmiddle hgap hafter hnew hrest
  refine ⟨_, _, behind, ?_, hkey.readString_append _, hread, hbehind⟩
  simp only [List.append_assoc, List.cons_append]
  rw [hbefore.dropBlanks_append, dropBlanks_cons rfl]

-- Each field takes a step, and at least one character.
theorem Fields.read (h : Fields entries text) {fuel : Nat} (hfuel : text.length < fuel)
    (hfresh : Fresh settings entries) (rest : List Char) :
    Settings.readFieldsWithin fuel settings (text ++ '\x7d' :: rest) =
      .ok (entries.foldl Entry.apply settings, rest) := by
  induction h generalizing fuel settings with
  | last hfield =>
      obtain ⟨fuel, rfl⟩ := Nat.exists_eq_add_of_le' (show 1 ≤ fuel by omega)
      obtain ⟨quoted, colon, behind, hquote, hkey, hread, hbehind⟩ :=
        hfield.read hfresh.head (endsNumber_brace rest)
      rw [dropBlanks_cons rfl] at hbehind
      rw [Settings.readFieldsWithin, hquote]
      simp [hkey, hread, hbehind, bind, Except.bind]
  | @more entry entries text others hfield _ ih =>
      rw [List.length_append, List.length_cons] at hfuel
      obtain ⟨fuel, rfl⟩ := Nat.exists_eq_add_of_le' (show 1 ≤ fuel by omega)
      obtain ⟨quoted, colon, behind, hquote, hkey, hread, hbehind⟩ :=
        hfield.read hfresh.head (endsNumber_comma (others ++ '\x7d' :: rest))
      rw [dropBlanks_cons rfl] at hbehind
      rw [List.append_assoc, List.cons_append, Settings.readFieldsWithin, hquote]
      simp only [hkey, hread, hbehind, bind, Except.bind]
      exact ih (by omega) hfresh.tail

-- What is left of fields once the blanks before the first key are gone
theorem Field.exists_quote (h : Field entry text) :
    ∃ more, Field entry ('"' :: more) ∧
      ∀ rest, dropBlanks (text ++ rest) = '"' :: (more ++ rest) := by
  obtain ⟨hbefore, hkey, hmiddle, hgap, hwrites, hafter⟩ := h
  refine ⟨_, .written blanks_nil hkey hmiddle hgap hwrites hafter, fun rest => ?_⟩
  rw [List.append_assoc, hbefore.dropBlanks_append, List.cons_append, dropBlanks_cons rfl]

theorem Fields.exists_quote (h : Fields entries text) :
    ∃ more, Fields entries ('"' :: more) ∧
      ∀ rest, dropBlanks (text ++ rest) = '"' :: (more ++ rest) := by
  cases h with
  | last h =>
      obtain ⟨more, hmore, hdrop⟩ := h.exists_quote
      exact ⟨more, .last hmore, hdrop⟩
  | @more entry entries text others h hothers =>
      obtain ⟨more, hmore, hdrop⟩ := h.exists_quote
      refine ⟨more ++ ',' :: others, .more hmore hothers, fun rest => ?_⟩
      rw [List.append_assoc, hdrop, List.append_assoc]

theorem Fields.readObject (h : Fields entries text) (hfresh : Fresh {} entries)
    (rest : List Char) :
    Settings.readObject (text ++ '\x7d' :: rest) = .ok (entries.foldl Entry.apply {}, rest) := by
  obtain ⟨more, hmore, hdrop⟩ := h.exists_quote
  have hfuel : ('"' :: more).length < ('"' :: (more ++ '\x7d' :: rest)).length + 1 := by
    simp only [List.length_cons, List.length_append]
    omega
  rw [Settings.readObject, hdrop]
  exact hmore.read hfuel hfresh rest

theorem Fresh.of_nodup (h : (entries.filterMap Entry.setting?).Nodup) : Fresh {} entries :=
  ⟨h, fun setting _ => by rw [Settings.names_eq, Settings.get?_empty]; rfl⟩

-- An object with known fields once each is read as what it lists.
theorem Document.read (h : Document entries text) (hfresh : Fresh {} entries) :
    ∃ after, readDocument text = .ok (entries.foldl Entry.apply {}, after) ∧ Blanks after := by
  cases h with
  | @empty before gap after hbefore hgap hafter =>
      refine ⟨after, ?_, hafter⟩
      rw [readDocument, hbefore.dropBlanks_append, dropBlanks_cons rfl]
      change Settings.readObject (gap ++ '\x7d' :: after) = _
      rw [Settings.readObject, hgap.dropBlanks_append, dropBlanks_cons rfl]
      rfl
  | @fields entries before fields after hbefore hfields hafter =>
      refine ⟨after, ?_, hafter⟩
      rw [readDocument, hbefore.dropBlanks_append, dropBlanks_cons rfl]
      exact hfields.readObject hfresh after

theorem Document.parse {text : String} (h : Document entries text.toList)
    (hfresh : Fresh {} entries) :
    Config.parse text = .ok (entries.foldl Entry.apply {}).toConfig := by
  obtain ⟨after, hread, hafter⟩ := h.read hfresh
  rw [Config.parse, parseChars, hread]
  simp only [bind, Except.bind, pure, Except.pure, hafter.dropBlanks_eq_nil]

end Config

end TerminalRelay
