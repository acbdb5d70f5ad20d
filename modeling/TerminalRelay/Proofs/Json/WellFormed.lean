import TerminalRelay.Proofs.Json.Lexical

namespace TerminalRelay.Json

variable {meant text gap : List Char}

-- A single value, with nothing but blanks around it
def WellFormed (text : String) : Prop :=
  Derives .element text.toList

theorem blanks_indent (depth : Nat) : Blanks (indent depth) := by
  intro c hmem
  rw [indent, List.mem_cons, List.mem_replicate] at hmem
  rcases hmem with rfl | ⟨-, rfl⟩ <;> decide

theorem Spells.isString (h : Spells meant text) : IsString text := by
  induction h with
  | nil => exact .nil
  | plain hplain _ ih => exact .plain hplain ih
  | letter hletter _ ih => exact .letter hletter ih
  | unit hunit _ ih => exact .unit hunit ih
  | pair _ _ _ hleading htrailing _ ih => exact .unit hleading (.unit htrailing ih)

theorem isString_escaped (text : List Char) : IsString (text.flatMap escape) :=
  (spells_escaped text).isString

theorem isNumber_digits (value : Nat) : IsNumber (digits value) := by
  have hnumber : IsNumber ([] ++ (digits value ++ ([] ++ []))) :=
    .parts (by decide) (isWhole_digits value) .none .none
  rwa [List.append_nil, List.append_nil, List.nil_append] at hnumber

-- A value on a line of its own, up to what is printed before the next one or before the bracket
theorem Derives.element_indent (h : Derives .value text) (depth : Nat) (hgap : Blanks gap) :
    Derives .element (indent depth ++ (text ++ gap)) :=
  .element (blanks_indent depth) h hgap

theorem Derives.member_indent (h : Derives .value text) (depth : Nat) (key : String)
    (hgap : Blanks gap) :
    Derives .member (indent depth ++ (quoted key ++ ':' :: ' ' :: (text ++ gap))) := by
  have hspace : Blanks [' '] := by decide
  have hmember := Derives.member (blanks_indent depth) (isString_escaped key.toList) blanks_nil
    (.element hspace h hgap)
  simpa [quoted] using hmember

-- What is printed over lines is derived by the grammar, level by level.
mutual

theorem derives_prettyChars (document : Json) (depth : Nat) :
    Derives .value (document.prettyChars depth) := by
  cases document with
  | null => exact .null
  | bool value => exact .truth value
  | number value => exact .number (isNumber_digits value)
  | string text => exact .string (isString_escaped text.toList)
  | array items =>
      cases items with
      | nil => exact .emptyArray blanks_nil
      | cons item items =>
          have helements : Derives .elements
              (prettyItems (depth + 1) (item :: items) ++ indent depth) :=
            derives_prettyItems (item :: items) (depth + 1) (by simp) (blanks_indent depth)
          exact .array helements
  | object fields =>
      cases fields with
      | nil => exact .emptyObject blanks_nil
      | cons field fields =>
          have hmembers : Derives .members
              (prettyFields (depth + 1) (field :: fields) ++ indent depth) :=
            derives_prettyFields (field :: fields) (depth + 1) (by simp) (blanks_indent depth)
          exact .object hmembers

theorem derives_prettyItems (items : List Json) (depth : Nat) {gap : List Char}
    (hne : items ≠ []) (hgap : Blanks gap) :
    Derives .elements (prettyItems depth items ++ gap) := by
  cases items with
  | nil => exact absurd rfl hne
  | cons item items =>
      have hitem := derives_prettyChars item depth
      cases items with
      | nil =>
          rw [prettyItems, List.append_assoc]
          exact .lastElement (hitem.element_indent depth hgap)
      | cons next items =>
          have hothers : Derives .elements (prettyItems depth (next :: items) ++ gap) :=
            derives_prettyItems (next :: items) depth (by simp) hgap
          have helements := Derives.moreElements (hitem.element_indent depth blanks_nil) hothers
          simpa [prettyItems] using helements

theorem derives_prettyFields (fields : List (String × Json)) (depth : Nat) {gap : List Char}
    (hne : fields ≠ []) (hgap : Blanks gap) :
    Derives .members (prettyFields depth fields ++ gap) := by
  cases fields with
  | nil => exact absurd rfl hne
  | cons field fields =>
      obtain ⟨key, value⟩ := field
      have hvalue := derives_prettyChars value depth
      cases fields with
      | nil =>
          have hmember := hvalue.member_indent depth key hgap
          simpa [prettyFields] using Derives.lastMember hmember
      | cons next fields =>
          have hothers : Derives .members (prettyFields depth (next :: fields) ++ gap) :=
            derives_prettyFields (next :: fields) depth (by simp) hgap
          have hmembers := Derives.moreMembers
            (hvalue.member_indent depth key blanks_nil) hothers
          simpa [prettyFields] using hmembers

end

theorem wellFormed_pretty (document : Json) : WellFormed document.pretty := by
  have helement := Derives.element blanks_nil (derives_prettyChars document 0) blanks_nil
  rw [List.nil_append, List.append_nil] at helement
  rwa [WellFormed, pretty, String.toList_ofList]

end TerminalRelay.Json
