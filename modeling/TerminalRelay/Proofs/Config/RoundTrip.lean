import TerminalRelay.Proofs.Config.Document

namespace TerminalRelay

open Json

namespace Config

variable {setting : Setting} {settings : Settings} {entries : List Entry} {config : Config}

-- What the listed values come to

theorem get?_foldl_of_notMem (h : setting ∉ entries.filterMap Entry.setting?) :
    (entries.foldl Entry.apply settings).get? setting = settings.get? setting := by
  induction entries generalizing settings with
  | nil => rfl
  | cons entry entries ih =>
      cases entry with
      | other key unknown => exact ih h
      | known named value =>
          obtain ⟨hne, hothers⟩ := not_or.mp (mt List.mem_cons.mpr h)
          rw [List.foldl_cons, ih hothers, Entry.apply, Settings.get?_set_of_ne hne]

theorem get?_foldl_of_mem {value : setting.Value} (h : .known setting value ∈ entries)
    (hnodup : (entries.filterMap Entry.setting?).Nodup) :
    (entries.foldl Entry.apply settings).get? setting = some value := by
  induction entries generalizing settings with
  | nil => cases h
  | cons entry entries ih =>
      rcases List.mem_cons.mp h with rfl | hmem
      · obtain ⟨hnot, -⟩ := List.nodup_cons.mp hnodup
        rw [List.foldl_cons, get?_foldl_of_notMem hnot, Entry.apply, Settings.get?_set_self]
      · cases entry with
        | other key unknown => exact ih hmem hnodup
        | known named found => exact ih hmem (List.nodup_cons.mp hnodup).2

theorem notMem_settings (h : ∀ value, .known setting value ∉ entries) :
    setting ∉ entries.filterMap Entry.setting? := by
  intro hmem
  obtain ⟨entry, hentry, heq⟩ := List.mem_filterMap.mp hmem
  cases entry with
  | other key unknown => cases heq
  | known named value =>
      cases heq
      exact h value hentry

-- What is printed is an object with all four fields

def fields (config : Config) : List Entry :=
  Setting.all.map fun setting => .known setting (config.get setting)

theorem field_printed {value : setting.Value} (h : setting.Fits value) :
    Field (.known setting value) (quoted setting.key ++ ':' :: setting.write value) := by
  have hfield : Field (.known setting value) _ :=
    .written blanks_nil (spells_escaped setting.key.toList) blanks_nil blanks_nil ⟨h, rfl⟩
      blanks_nil
  simpa [quoted] using hfield

theorem document_print (h : config.Fits) : Document config.fields config.print.toList := by
  have hfields := Fields.more (field_printed (h .lineCapacity)) <|
    .more (field_printed (h .escapeCapacity)) <|
    .more (field_printed (h .debugCapacity)) (.last (field_printed (h .forwardToViewers)))
  have hdocument := Document.fields blanks_nil hfields blanks_nil
  simpa [fields, Setting.all, Setting.key, Setting.write, get, print, compact, toJson,
    compactChars, compactFields] using hdocument

-- Settings are merged with the usual ones.
theorem exists_of_document {text : String} (h : Document entries text.toList)
    (hnodup : (entries.filterMap Entry.setting?).Nodup) :
    ∃ config, parse text = .ok config ∧ ∀ setting,
      (∀ value, .known setting value ∈ entries → config.get setting = value) ∧
      ((∀ value, .known setting value ∉ entries) → config.get setting = setting.usual) := by
  refine ⟨_, h.parse (.of_nodup hnodup), fun setting => ⟨fun value hmem => ?_, fun hnone => ?_⟩⟩
  · rw [Settings.get_toConfig, get?_foldl_of_mem hmem hnodup]
    rfl
  · rw [Settings.get_toConfig, get?_foldl_of_notMem (notMem_settings hnone), Settings.get?_empty]
    rfl

theorem parse_print (h : config.Fits) : parse config.print = .ok config := by
  have hnodup : (config.fields.filterMap Entry.setting?).Nodup := by
    simp [fields, Setting.all, Entry.setting?]
  obtain ⟨found, hparse, hfound⟩ := exists_of_document (document_print h) hnodup
  have heq : found = config := eq_of_get fun setting =>
    (hfound setting).1 _ (List.mem_map.mpr ⟨setting, by cases setting <;> simp [Setting.all], rfl⟩)
  rw [hparse, heq]

-- A printed document gives its configuration back. An object, with known fields once each in any
-- order and with any others in between, gives what it lists, and the usual value for what it does
-- not. So whatever has been read stays the same when it is printed and read again.
theorem parse_merged :
    (∀ config : Config, config.Fits → parse config.print = .ok config) ∧
    (∀ (entries : List Entry) (text : String), Document entries text.toList →
      (entries.filterMap Entry.setting?).Nodup →
      ∃ config, parse text = .ok config ∧ ∀ setting,
        (∀ value, .known setting value ∈ entries → config.get setting = value) ∧
        ((∀ value, .known setting value ∉ entries) → config.get setting = setting.usual)) ∧
    (∀ (text : String) (config : Config), parse text = .ok config →
      parse config.print = .ok config) :=
  ⟨fun _ => parse_print, fun _ _ => exists_of_document,
    fun _ _ h => parse_print (fits_of_parse h)⟩

-- Nested values under an unknown key, a key with an escape, and two of the four settings
theorem parse_merged_partial :
    parse ("\x7b \"x\" : [null, \x7b\"a\":-1.5e+3\x7d] , \"line\\u005fcapacity\": 10\n," ++
        "\"forward_to_viewers\":false\x7d") =
      .ok { lineCapacity := 10, forwardToViewers := false } ∧
    parse ({} : Config).print = .ok {} ∧
    parse ({ lineCapacity := 10, forwardToViewers := false } : Config).print =
      .ok { lineCapacity := 10, forwardToViewers := false } := by
  have hunknown (setting : Setting) : setting.key.toList ≠ ['x'] := by cases setting <;> decide
  have hmerged (text : String)
      (h : Document [.other ['x'] hunknown, .known .lineCapacity 10,
        .known .forwardToViewers false] text.toList) :
      parse text = .ok { lineCapacity := 10, forwardToViewers := false } := by
    have hnodup : [Setting.lineCapacity, .forwardToViewers].Nodup := by decide
    obtain ⟨config, hparse, hconfig⟩ := parse_merged.2.1 _ text h hnodup
    rw [hparse]
    refine congrArg Except.ok (eq_of_get fun setting => ?_)
    cases setting with
    | lineCapacity => exact (hconfig .lineCapacity).1 10 (by simp)
    | escapeCapacity => exact (hconfig .escapeCapacity).2 (by simp)
    | debugCapacity => exact (hconfig .debugCapacity).2 (by simp)
    | forwardToViewers => exact (hconfig .forwardToViewers).1 false (by simp)
  refine ⟨?listed, parse_merged.1 {} Setting.fits_usual, parse_merged.2.2 _ _ ?listed⟩
  refine hmerged _ ?_
  have hspace : Blanks [' '] := by decide
  have hnumber : IsNumber (['-'] ++ (['1'] ++ (['.', '5'] ++ ['e', '+', '3']))) :=
    .parts (by decide) (by decide) (.point (by decide))
      (@IsExponent.power 'e' ['+'] ['3'] (by decide) (by decide) (by decide))
  have hmember := Derives.member blanks_nil (.plain (c := 'a') (by decide) .nil) blanks_nil
    (.element blanks_nil (.number hnumber) blanks_nil)
  have hvalue := Derives.array (.moreElements (.element blanks_nil .null blanks_nil)
    (.lastElement (.element hspace (.object (.lastMember hmember)) blanks_nil)))
  have hother : Field (.other ['x'] hunknown) _ :=
    .written hspace (.plain (by decide) .nil) hspace hspace hvalue hspace
  have hunderscore : IsUnit '_'.toNat ['0', '0', '5', 'f'] :=
    @IsUnit.digits 0 0 5 15 _ _ _ _ (by decide) (by decide) (by decide) (by decide)
  have hline : Field (.known .lineCapacity 10) _ :=
    .written hspace
      (.plain (by decide) (.plain (by decide) (.plain (by decide) (.plain (by decide)
        (.unit hunderscore (spells_escaped "capacity".toList))))))
      blanks_nil hspace ⟨show 10 < Nat.pow 2 64 by decide, rfl⟩ (show Blanks ['\n'] by decide)
  have hforward : Field (.known .forwardToViewers false) _ :=
    .written blanks_nil (spells_escaped "forward_to_viewers".toList) blanks_nil blanks_nil
      ⟨trivial, rfl⟩ blanks_nil
  exact .fields blanks_nil (.more hother (.more hline (.last hforward))) blanks_nil

end Config

end TerminalRelay
