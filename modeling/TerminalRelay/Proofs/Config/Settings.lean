import TerminalRelay.Config.Reader
import TerminalRelay.Proofs.Json.Lexical

namespace TerminalRelay

open Json

variable {setting other : Setting} {settings found : Settings} {config : Config}
  {text rest key : List Char}

namespace Setting

-- What a setting can be set to
@[reducible] def Value : Setting → Type
  | lineCapacity => Nat
  | escapeCapacity => Nat
  | debugCapacity => Nat
  | forwardToViewers => Bool

-- A capacity has 64 bits
def Fits : (setting : Setting) → setting.Value → Prop
  | lineCapacity, value => value < Nat.pow 2 64
  | escapeCapacity, value => value < Nat.pow 2 64
  | debugCapacity, value => value < Nat.pow 2 64
  | forwardToViewers, _ => True

def usual : (setting : Setting) → setting.Value
  | lineCapacity => 16384
  | escapeCapacity => 64
  | debugCapacity => 16
  | forwardToViewers => true

def read : (setting : Setting) → List Char → Except Problem (setting.Value × List Char)
  | lineCapacity => readCapacity
  | escapeCapacity => readCapacity
  | debugCapacity => readCapacity
  | forwardToViewers => readTruth

end Setting

namespace Config

def get (config : Config) : (setting : Setting) → setting.Value
  | .lineCapacity => config.lineCapacity
  | .escapeCapacity => config.escapeCapacity
  | .debugCapacity => config.debugCapacity
  | .forwardToViewers => config.forwardToViewers

def Fits (config : Config) : Prop :=
  ∀ setting : Setting, setting.Fits (config.get setting)

theorem eq_of_get {other : Config} (h : ∀ setting, config.get setting = other.get setting) :
    config = other := by
  cases config
  cases other
  congr
  · exact h .lineCapacity
  · exact h .escapeCapacity
  · exact h .debugCapacity
  · exact h .forwardToViewers

end Config

namespace Settings

def get? (settings : Settings) : (setting : Setting) → Option setting.Value
  | .lineCapacity => settings.lineCapacity
  | .escapeCapacity => settings.escapeCapacity
  | .debugCapacity => settings.debugCapacity
  | .forwardToViewers => settings.forwardToViewers

def set (settings : Settings) : (setting : Setting) → setting.Value → Settings
  | .lineCapacity, value => { settings with lineCapacity := value }
  | .escapeCapacity, value => { settings with escapeCapacity := value }
  | .debugCapacity, value => { settings with debugCapacity := value }
  | .forwardToViewers, value => { settings with forwardToViewers := value }

def Fits (settings : Settings) : Prop :=
  ∀ setting : Setting, ∀ value ∈ settings.get? setting, setting.Fits value

@[simp] theorem get?_empty (setting : Setting) : ({} : Settings).get? setting = none := by
  cases setting <;> rfl

@[simp] theorem get?_set_self (settings : Settings) (setting : Setting) (value : setting.Value) :
    (settings.set setting value).get? setting = some value := by
  cases setting <;> rfl

theorem get?_set_of_ne (h : other ≠ setting) (settings : Settings) (value : setting.Value) :
    (settings.set setting value).get? other = settings.get? other := by
  cases setting <;> cases other <;> first | rfl | exact absurd rfl h

theorem names_eq (settings : Settings) (setting : Setting) :
    settings.names setting = (settings.get? setting).isSome := by
  cases setting <;> rfl

theorem get_toConfig (settings : Settings) (setting : Setting) :
    settings.toConfig.get setting = (settings.get? setting).getD setting.usual := by
  cases setting <;> rfl

theorem readValue_eq (settings : Settings) (setting : Setting) (text : List Char) :
    settings.readValue setting text =
      (setting.read text).map fun (value, rest) => (settings.set setting value, rest) := by
  cases setting <;> rfl

end Settings

-- Only numbers of 64 bits are taken for capacities

namespace Json

section Reading

variable {α β : Type}

theorem exists_of_map {read : Except Problem α} {f : α → β} {result : β}
    (h : read.map f = .ok result) : ∃ found, read = .ok found ∧ f found = result := by
  cases read with
  | error problem => exact absurd h (by simp [Except.map])
  | ok found => exact ⟨found, rfl, Except.ok.inj h⟩

theorem exists_of_bind {read : Except Problem α} {f : α → Except Problem β} {result : β}
    (h : read >>= f = .ok result) : ∃ found, read = .ok found ∧ f found = .ok result := by
  cases read with
  | error problem => exact absurd h (by simp [bind, Except.bind])
  | ok found => exact ⟨found, rfl, h⟩

end Reading

theorem absorb_lt {significand : Nat} (h : significand < Nat.pow 2 64) (digits : List Char) :
    (absorb significand digits).1 < Nat.pow 2 64 := by
  induction digits generalizing significand with
  | nil => exact h
  | cons c digits ih =>
      rw [absorb]
      split
      case isTrue hlonger => exact ih hlonger
      case isFalse => exact h

theorem lt_of_readNumber {value : Nat} (h : readNumber text = .ok (some value, rest)) :
    value < Nat.pow 2 64 := by
  obtain ⟨⟨written, after⟩, -, h⟩ := exists_of_bind h
  dsimp only at h
  split at h
  case isTrue => cases h
  case isFalse =>
    have hnatural : written.natural? = some value := (Prod.mk.inj (Except.ok.inj h)).1
    unfold NumberText.natural? at hnatural
    split_ifs at hnatural
    cases hnatural
    exact absorb_lt (by decide) _

end Json

theorem lt_of_readCapacity {value : Nat} (h : readCapacity text = .ok (value, rest)) :
    value < Nat.pow 2 64 := by
  unfold readCapacity at h
  split at h
  case h_1 c tail hdrop =>
    split at h
    case isTrue =>
      split at h
      case h_1 found after hread =>
        cases h
        exact lt_of_readNumber hread
      case h_2 => cases h
      case h_3 => cases h
    case isFalse => cases h
  case h_2 => cases h

theorem Setting.fits_usual (setting : Setting) : setting.Fits setting.usual := by
  cases setting <;> simp [Fits, usual]

theorem Setting.fits_of_read {value : setting.Value} (h : setting.read text = .ok (value, rest)) :
    setting.Fits value := by
  cases setting with
  | lineCapacity => exact lt_of_readCapacity h
  | escapeCapacity => exact lt_of_readCapacity h
  | debugCapacity => exact lt_of_readCapacity h
  | forwardToViewers => trivial

namespace Settings

theorem fits_empty : ({} : Settings).Fits := by
  intro setting value hvalue
  simp at hvalue

theorem Fits.set (h : settings.Fits) {value : setting.Value} (hvalue : setting.Fits value) :
    (settings.set setting value).Fits := by
  intro other found hfound
  by_cases hne : other = setting
  · subst hne
    rw [get?_set_self, Option.mem_some_iff] at hfound
    exact hfound ▸ hvalue
  · rw [get?_set_of_ne hne] at hfound
    exact h other found hfound

theorem Fits.readValue (h : settings.Fits)
    (hread : settings.readValue setting text = .ok (found, rest)) : found.Fits := by
  rw [readValue_eq] at hread
  obtain ⟨⟨value, after⟩, hvalue, heq⟩ := exists_of_map hread
  cases heq
  exact h.set (Setting.fits_of_read hvalue)

theorem Fits.readField (h : settings.Fits)
    (hread : settings.readField key text = .ok (found, rest)) : found.Fits := by
  unfold Settings.readField at hread
  split at hread
  case h_1 setting _ =>
    split at hread
    case isTrue => cases hread
    case isFalse =>
      obtain ⟨value, -, hread⟩ := exists_of_bind hread
      exact h.readValue hread
  case h_2 =>
    obtain ⟨after, -, heq⟩ := exists_of_map hread
    cases heq
    exact h

theorem Fits.readFieldsWithin {fuel : Nat} (h : settings.Fits)
    (hread : readFieldsWithin fuel settings text = .ok (found, rest)) : found.Fits := by
  induction fuel generalizing settings text with
  | zero => cases hread
  | succ fuel ih =>
      rw [Settings.readFieldsWithin] at hread
      split at hread
      case h_1 =>
        obtain ⟨⟨key, colon⟩, -, hread⟩ := exists_of_bind hread
        obtain ⟨⟨next, after⟩, hfield, hread⟩ := exists_of_bind hread
        have hnext : next.Fits := h.readField hfield
        dsimp only at hread
        split at hread
        case h_1 => exact ih hnext hread
        case h_2 =>
          cases hread
          exact hnext
        case h_3 => cases hread
        case h_4 => cases hread
      case h_2 => cases hread
      case h_3 => cases hread

-- Items that are read end here, or are one value and then the others.
theorem readItems_eq_ok {first : Bool} {remaining : List Setting}
    (h : settings.readItems first remaining text = .ok (found, rest)) :
    found = settings ∨ ∃ setting others value next after, remaining = setting :: others ∧
      settings.readValue setting value = .ok (next, after) ∧
      next.readItems false others after = .ok (found, rest) := by
  unfold readItems at h
  split at h
  case h_1 =>
    cases h
    exact .inl rfl
  case h_2 => cases h
  case h_3 => cases h
  case h_4 setting others _ _ =>
    dsimp only at h
    split at h
    case isTrue =>
      obtain ⟨value, -, h⟩ := exists_of_bind h
      obtain ⟨⟨next, after⟩, hvalue, h⟩ := exists_of_bind h
      exact .inr ⟨setting, others, value, next, after, rfl, hvalue, h⟩
    case isFalse =>
      split at h
      case h_1 =>
        split at h
        case h_1 => cases h
        case h_2 => cases h
        case h_3 =>
          obtain ⟨value, -, h⟩ := exists_of_bind h
          obtain ⟨⟨next, after⟩, hvalue, h⟩ := exists_of_bind h
          exact .inr ⟨setting, others, value, next, after, rfl, hvalue, h⟩
      case h_2 => cases h

theorem Fits.readItems {first : Bool} {remaining : List Setting} (h : settings.Fits)
    (hread : settings.readItems first remaining text = .ok (found, rest)) : found.Fits := by
  induction remaining generalizing settings first text with
  | nil =>
      rcases readItems_eq_ok hread with rfl | ⟨_, _, _, _, _, hnone, -⟩
      · exact h
      · cases hnone
  | cons setting remaining ih =>
      rcases readItems_eq_ok hread with rfl | ⟨_, _, _, next, _, heq, hvalue, hothers⟩
      · exact h
      · cases heq
        exact ih (h.readValue hvalue) hothers

theorem fits_of_readDocument (h : Config.readDocument text = .ok (found, rest)) : found.Fits := by
  unfold Config.readDocument at h
  split at h
  case h_1 =>
    unfold readObject at h
    split at h
    case h_1 =>
      cases h
      exact fits_empty
    case h_2 => exact fits_empty.readFieldsWithin h
  case h_2 => exact fits_empty.readItems h
  case h_3 => cases h

theorem Fits.toConfig (h : settings.Fits) : settings.toConfig.Fits := by
  intro setting
  rw [get_toConfig]
  cases hvalue : settings.get? setting with
  | none => exact setting.fits_usual
  | some value => exact h setting value hvalue

end Settings

theorem Config.fits_of_parse {text : String} (h : parse text = .ok config) : config.Fits := by
  obtain ⟨⟨settings, rest⟩, hread, h⟩ := exists_of_bind h
  dsimp only at h
  split at h
  case h_1 =>
    cases h
    exact (Settings.fits_of_readDocument hread).toConfig
  case h_2 => cases h

end TerminalRelay
