import TerminalRelay.Config.Reader
import TerminalRelay.Proofs.Json.Lexical

namespace TerminalRelay.Json

-- A number as far as documents have numbers
def readNatural (text : List Char) : Except Problem (Json × List Char) := do
  let (written, rest) ← readNumberText text
  if written.negative ∨ written.fraction ≠ [] ∨ written.exponent ≠ [] then .error .mismatch
  else return (.number (decimal written.whole), rest)

-- A key and its colon
def readKey (text : List Char) : Except Problem (String × List Char) :=
  match dropBlanks text with
  | '"' :: rest => do
    let (key, rest) ← readString rest
    let rest ← Settings.afterColon rest
    return (String.ofList key, rest)
  | [] => .error .unfinished
  | _ => .error .malformed

-- Behind one value of several: whether another follows, or the bracket that closes them
def readSeparator (close : Char) (text : List Char) : Except Problem (Bool × List Char) :=
  match dropBlanks text with
  | [] => .error .unfinished
  | c :: rest =>
    if c = ',' then .ok (true, rest)
    else if c = close then .ok (false, rest)
    else .error .malformed

mutual

-- The value that stands here, and what follows it; `fuel` bounds the characters still to be read
def readValueWithin : (fuel : Nat) → List Char → Except Problem (Json × List Char)
  | 0, _ => .error .unfinished
  | fuel + 1, text =>
    match dropBlanks text with
    | [] => .error .unfinished
    | c :: rest =>
      if c = 'n' then (readName ['u', 'l', 'l'] rest).map fun rest => (.null, rest)
      else if c = 't' then (readName ['r', 'u', 'e'] rest).map fun rest => (.bool true, rest)
      else if c = 'f' then (readName ['a', 'l', 's', 'e'] rest).map fun rest => (.bool false, rest)
      else if c = '"' then
        (readString rest).map fun (text, rest) => (.string (String.ofList text), rest)
      else if c = '-' ∨ c.isDigit then readNatural (c :: rest)
      else if c = '[' then
        if (dropBlanks rest).head? = some ']' then .ok (.array [], (dropBlanks rest).tail)
        else (readItemsWithin fuel rest).map fun (items, rest) => (.array items, rest)
      else if c = '\x7b' then
        if (dropBlanks rest).head? = some '\x7d' then .ok (.object [], (dropBlanks rest).tail)
        else (readMembersWithin fuel rest).map fun (fields, rest) => (.object fields, rest)
      else .error .malformed

-- At least one value, then the closing bracket
def readItemsWithin : (fuel : Nat) → List Char → Except Problem (List Json × List Char)
  | 0, _ => .error .unfinished
  | fuel + 1, text => do
    let (item, rest) ← readValueWithin fuel text
    let (more, rest) ← readSeparator ']' rest
    if more then
      let (items, rest) ← readItemsWithin fuel rest
      return (item :: items, rest)
    else return ([item], rest)

-- At least one key with its value, then the closing brace
def readMembersWithin : (fuel : Nat) → List Char →
    Except Problem (List (String × Json) × List Char)
  | 0, _ => .error .unfinished
  | fuel + 1, text => do
    let (key, rest) ← readKey text
    let (value, rest) ← readValueWithin fuel rest
    let (more, rest) ← readSeparator '\x7d' rest
    if more then
      let (fields, rest) ← readMembersWithin fuel rest
      return ((key, value) :: fields, rest)
    else return ([(key, value)], rest)

end

-- A whole text, behind whose document only blanks may stand
def parse (text : String) : Except Problem Json := do
  let (document, rest) ← readValueWithin (text.toList.length + 1) text.toList
  match dropBlanks rest with
  | [] => return document
  | _ => .error .malformed

variable {fuel depth outer : Nat} {c : Char} {text after next rest : List Char}
  {item value : Json} {items : List Json} {key : String} {fields : List (String × Json)}

-- The rules by which values are read

theorem readValueWithin_congr (h : dropBlanks text = dropBlanks next) (fuel : Nat) :
    readValueWithin fuel text = readValueWithin fuel next := by
  cases fuel with
  | zero => rfl
  | succ fuel => rw [readValueWithin, readValueWithin, h]

theorem readValueWithin_digit (hc : c.isDigit = true) (fuel : Nat) (rest : List Char) :
    readValueWithin (fuel + 1) (c :: rest) = readNatural (c :: rest) := by
  rw [readValueWithin, dropBlanks_cons (isBlank_of_isDigit hc)]
  dsimp only
  rw [if_neg (ne_of_isDigit hc rfl), if_neg (ne_of_isDigit hc rfl), if_neg (ne_of_isDigit hc rfl),
    if_neg (ne_of_isDigit hc rfl), if_pos (.inr hc)]

theorem readValueWithin_string (fuel : Nat) (text : String) (rest : List Char) :
    readValueWithin (fuel + 1) (quoted text ++ rest) = .ok (.string text, rest) := by
  have hquoted : quoted text ++ rest = '"' :: (text.toList.flatMap escape ++ '"' :: rest) := by
    rw [quoted, List.cons_append, List.cons_append, List.append_assoc]
    rfl
  rw [hquoted, readValueWithin, dropBlanks_cons rfl]
  simp [readString_escaped, Except.map]

theorem readValueWithin_items (hne : (dropBlanks text).head? ≠ some ']')
    (h : readItemsWithin fuel text = .ok (items, rest)) :
    readValueWithin (fuel + 1) ('[' :: text) = .ok (.array items, rest) := by
  rw [readValueWithin, dropBlanks_cons rfl]
  simp [hne, h, Except.map]

theorem readValueWithin_members (hne : (dropBlanks text).head? ≠ some '\x7d')
    (h : readMembersWithin fuel text = .ok (fields, rest)) :
    readValueWithin (fuel + 1) ('\x7b' :: text) = .ok (.object fields, rest) := by
  rw [readValueWithin, dropBlanks_cons rfl]
  simp [hne, h, Except.map]

theorem readItemsWithin_last (h : readValueWithin fuel text = .ok (item, after))
    (hafter : readSeparator ']' after = .ok (false, rest)) :
    readItemsWithin (fuel + 1) text = .ok ([item], rest) := by
  rw [readItemsWithin, h]
  change (readSeparator ']' after >>= _) = _
  rw [hafter]
  rfl

theorem readItemsWithin_more (h : readValueWithin fuel text = .ok (item, after))
    (hafter : readSeparator ']' after = .ok (true, next))
    (hnext : readItemsWithin fuel next = .ok (items, rest)) :
    readItemsWithin (fuel + 1) text = .ok (item :: items, rest) := by
  rw [readItemsWithin, h]
  change (readSeparator ']' after >>= _) = _
  rw [hafter]
  change (readItemsWithin fuel next >>= _) = _
  rw [hnext]
  rfl

theorem readMembersWithin_last {start : List Char} (hkey : readKey text = .ok (key, start))
    (h : readValueWithin fuel start = .ok (value, after))
    (hafter : readSeparator '\x7d' after = .ok (false, rest)) :
    readMembersWithin (fuel + 1) text = .ok ([(key, value)], rest) := by
  rw [readMembersWithin, hkey]
  change (readValueWithin fuel start >>= _) = _
  rw [h]
  change (readSeparator '\x7d' after >>= _) = _
  rw [hafter]
  rfl

theorem readMembersWithin_more {start : List Char} (hkey : readKey text = .ok (key, start))
    (h : readValueWithin fuel start = .ok (value, after))
    (hafter : readSeparator '\x7d' after = .ok (true, next))
    (hnext : readMembersWithin fuel next = .ok (fields, rest)) :
    readMembersWithin (fuel + 1) text = .ok ((key, value) :: fields, rest) := by
  rw [readMembersWithin, hkey]
  change (readValueWithin fuel start >>= _) = _
  rw [h]
  change (readSeparator '\x7d' after >>= _) = _
  rw [hafter]
  change (readMembersWithin fuel next >>= _) = _
  rw [hnext]
  rfl

-- What is printed between values

theorem readKey_quoted (depth : Nat) (key : String) (rest : List Char) :
    readKey (indent depth ++ (quoted key ++ ':' :: rest)) = .ok (key, rest) := by
  have hquoted : dropBlanks (indent depth ++ (quoted key ++ ':' :: rest)) =
      '"' :: (key.toList.flatMap escape ++ '"' :: ':' :: rest) := by
    rw [dropBlanks_indent, quoted, List.cons_append, List.cons_append, List.append_assoc]
    exact dropBlanks_cons rfl _
  have hcolon : Settings.afterColon (':' :: rest) = .ok rest := by
    rw [Settings.afterColon, dropBlanks_cons rfl]
    rfl
  rw [readKey, hquoted]
  simp [readString_escaped, hcolon, bind, Except.bind, pure, Except.pure]

theorem readSeparator_comma (close : Char) (rest : List Char) :
    readSeparator close (',' :: rest) = .ok (true, rest) := by
  rw [readSeparator, dropBlanks_cons rfl]
  rfl

theorem readSeparator_close {close : Char} (hblank : isBlank close = false) (hcomma : close ≠ ',')
    (depth : Nat) (rest : List Char) :
    readSeparator close (indent depth ++ close :: rest) = .ok (false, rest) := by
  rw [readSeparator, dropBlanks_indent, dropBlanks_cons hblank]
  dsimp only
  rw [if_neg hcomma, if_pos rfl]

theorem endsNumber_indent (depth : Nat) (rest : List Char) :
    EndsNumber (indent depth ++ rest) := by
  rintro c ⟨⟩
  decide

-- What a printed document begins with
theorem exists_prettyChars (document : Json) (depth : Nat) : ∃ c more,
    document.prettyChars depth = c :: more ∧ isBlank c = false ∧ c ≠ ']' := by
  cases document with
  | null => exact ⟨_, _, rfl, rfl, by decide⟩
  | bool value => cases value <;> exact ⟨_, _, rfl, rfl, by decide⟩
  | number value =>
      obtain ⟨c, more, hcons⟩ := List.exists_cons_of_ne_nil (digits_ne_nil value)
      have hdigit : c.isDigit = true := isDigit_of_mem_digits (hcons ▸ List.mem_cons_self)
      exact ⟨c, more, hcons, isBlank_of_isDigit hdigit, ne_of_isDigit hdigit rfl⟩
  | string text => exact ⟨_, _, rfl, rfl, by decide⟩
  | array items => cases items <;> exact ⟨_, _, rfl, rfl, by decide⟩
  | object fields => cases fields <;> exact ⟨_, _, rfl, rfl, by decide⟩

theorem dropBlanks_prettyItems (depth : Nat) (item : Json) (items : List Json) (after : List Char) :
    (dropBlanks (prettyItems depth (item :: items) ++ after)).head? ≠ some ']' := by
  obtain ⟨c, more, hitem, hblank, hc⟩ := exists_prettyChars item depth
  cases items <;>
    simp [prettyItems, hitem, dropBlanks_indent, dropBlanks_cons hblank, hc]

theorem dropBlanks_prettyFields (depth : Nat) (field : String × Json)
    (fields : List (String × Json)) (after : List Char) :
    (dropBlanks (prettyFields depth (field :: fields) ++ after)).head? ≠ some '\x7d' := by
  have hquote : isBlank '"' = false := rfl
  cases fields <;>
    simp [prettyFields, quoted, dropBlanks_indent, dropBlanks_cons hquote]

theorem length_indent (depth : Nat) : (indent depth).length = 2 * depth + 1 := by
  simp [indent]

theorem length_prettyItems (depth : Nat) (item : Json) (items : List Json) :
    (item.prettyChars depth).length + (prettyItems depth items).length <
      (prettyItems depth (item :: items)).length := by
  cases items with
  | nil => simp [prettyItems, length_indent]
  | cons next items =>
      simp [prettyItems, length_indent]
      omega

theorem length_prettyFields (depth : Nat) (key : String) (value : Json)
    (fields : List (String × Json)) :
    (value.prettyChars depth).length + (prettyFields depth fields).length <
      (prettyFields depth ((key, value) :: fields)).length := by
  cases fields with
  | nil =>
      simp [prettyFields, length_indent]
      omega
  | cons next fields =>
      simp [prettyFields, length_indent]
      omega

theorem readValueWithin_indent (fuel depth : Nat) (text : List Char) :
    readValueWithin fuel (indent depth ++ text) = readValueWithin fuel text :=
  readValueWithin_congr (dropBlanks_indent depth text) fuel

theorem readValueWithin_space (fuel : Nat) (text : List Char) :
    readValueWithin fuel (' ' :: text) = readValueWithin fuel text :=
  readValueWithin_congr (List.dropWhile_cons_of_pos rfl) fuel

-- A printed document is read as what it was before it was printed. The printed text is longer than
-- the reader goes deep, so it never runs out of fuel.
mutual

theorem readValueWithin_pretty (document : Json) (depth : Nat) {fuel : Nat} {rest : List Char}
    (hfuel : (document.prettyChars depth).length ≤ fuel) (hrest : EndsNumber rest) :
    readValueWithin (fuel + 1) (document.prettyChars depth ++ rest) = .ok (document, rest) := by
  cases document with
  | null => rfl
  | bool value => cases value <;> rfl
  | number value =>
      obtain ⟨c, more, hcons⟩ := List.exists_cons_of_ne_nil (digits_ne_nil value)
      have hdigit : c.isDigit = true := isDigit_of_mem_digits (hcons ▸ List.mem_cons_self)
      have hread := readNumberText_digits value hrest
      rw [prettyChars, hcons, List.cons_append, readValueWithin_digit hdigit, ← List.cons_append,
        ← hcons, readNatural, hread]
      simp [bind, Except.bind, pure, Except.pure, decimal_digits]
  | string text => exact readValueWithin_string fuel text rest
  | array items =>
      cases items with
      | nil => rfl
      | cons item items =>
          have htext : prettyChars depth (.array (item :: items)) ++ rest =
              '[' :: (prettyItems (depth + 1) (item :: items) ++
                (indent depth ++ ']' :: rest)) := by
            simp [prettyChars]
          rw [htext]
          refine readValueWithin_items (dropBlanks_prettyItems _ item items _) ?_
          refine readItemsWithin_pretty (item :: items) (depth + 1) depth rest (by simp) ?_
          simp [prettyChars] at hfuel
          omega
  | object fields =>
      cases fields with
      | nil => rfl
      | cons field fields =>
          have htext : prettyChars depth (.object (field :: fields)) ++ rest =
              '\x7b' :: (prettyFields (depth + 1) (field :: fields) ++
                (indent depth ++ '\x7d' :: rest)) := by
            simp [prettyChars]
          rw [htext]
          refine readValueWithin_members (dropBlanks_prettyFields _ field fields _) ?_
          refine readMembersWithin_pretty (field :: fields) (depth + 1) depth rest (by simp) ?_
          simp [prettyChars] at hfuel
          omega

theorem readItemsWithin_pretty (items : List Json) (depth outer : Nat) {fuel : Nat}
    (rest : List Char) (hne : items ≠ []) (hfuel : (prettyItems depth items).length < fuel) :
    readItemsWithin fuel (prettyItems depth items ++ (indent outer ++ ']' :: rest)) =
      .ok (items, rest) := by
  cases items with
  | nil => exact absurd rfl hne
  | cons item items =>
      have hlength := length_prettyItems depth item items
      obtain ⟨fuel, rfl⟩ := Nat.exists_eq_add_of_le' (show 2 ≤ fuel by omega)
      have hitem {after : List Char} (hafter : EndsNumber after) :
          readValueWithin (fuel + 1) (indent depth ++ (item.prettyChars depth ++ after)) =
            .ok (item, after) := by
        rw [readValueWithin_indent]
        exact readValueWithin_pretty item depth (by omega) hafter
      cases items with
      | nil =>
          rw [prettyItems, List.append_assoc]
          exact readItemsWithin_last (hitem (endsNumber_indent outer _))
            (readSeparator_close rfl (by decide) outer rest)
      | cons next items =>
          have hnext : readItemsWithin (fuel + 1)
              (prettyItems depth (next :: items) ++ (indent outer ++ ']' :: rest)) =
                .ok (next :: items, rest) :=
            readItemsWithin_pretty (next :: items) depth outer rest (by simp) (by omega)
          have htext : prettyItems depth (item :: next :: items) ++ (indent outer ++ ']' :: rest) =
              indent depth ++ (item.prettyChars depth ++ ',' ::
                (prettyItems depth (next :: items) ++ (indent outer ++ ']' :: rest))) := by
            simp [prettyItems]
          rw [htext]
          exact readItemsWithin_more (hitem (endsNumber_comma _)) (readSeparator_comma ']' _) hnext

theorem readMembersWithin_pretty (fields : List (String × Json)) (depth outer : Nat) {fuel : Nat}
    (rest : List Char) (hne : fields ≠ []) (hfuel : (prettyFields depth fields).length < fuel) :
    readMembersWithin fuel (prettyFields depth fields ++ (indent outer ++ '\x7d' :: rest)) =
      .ok (fields, rest) := by
  cases fields with
  | nil => exact absurd rfl hne
  | cons field fields =>
      obtain ⟨key, value⟩ := field
      have hlength := length_prettyFields depth key value fields
      obtain ⟨fuel, rfl⟩ := Nat.exists_eq_add_of_le' (show 2 ≤ fuel by omega)
      have hvalue {after : List Char} (hafter : EndsNumber after) :
          readValueWithin (fuel + 1) (' ' :: (value.prettyChars depth ++ after)) =
            .ok (value, after) := by
        rw [readValueWithin_space]
        exact readValueWithin_pretty value depth (by omega) hafter
      cases fields with
      | nil =>
          have htext : prettyFields depth [(key, value)] ++ (indent outer ++ '\x7d' :: rest) =
              indent depth ++ (quoted key ++ ':' :: ' ' ::
                (value.prettyChars depth ++ (indent outer ++ '\x7d' :: rest))) := by
            simp [prettyFields]
          rw [htext]
          exact readMembersWithin_last (readKey_quoted depth key _)
            (hvalue (endsNumber_indent outer _)) (readSeparator_close rfl (by decide) outer rest)
      | cons next fields =>
          have hnext : readMembersWithin (fuel + 1)
              (prettyFields depth (next :: fields) ++ (indent outer ++ '\x7d' :: rest)) =
                .ok (next :: fields, rest) :=
            readMembersWithin_pretty (next :: fields) depth outer rest (by simp) (by omega)
          have htext : prettyFields depth ((key, value) :: next :: fields) ++
                (indent outer ++ '\x7d' :: rest) =
              indent depth ++ (quoted key ++ ':' :: ' ' :: (value.prettyChars depth ++ ',' ::
                (prettyFields depth (next :: fields) ++ (indent outer ++ '\x7d' :: rest)))) := by
            simp [prettyFields]
          rw [htext]
          exact readMembersWithin_more (readKey_quoted depth key _) (hvalue (endsNumber_comma _))
            (readSeparator_comma '\x7d' _) hnext

end

-- Printing over lines loses nothing.
theorem parse_pretty (document : Json) : parse document.pretty = .ok document := by
  have hread : readValueWithin ((document.prettyChars 0).length + 1)
      (document.prettyChars 0 ++ []) = .ok (document, []) :=
    readValueWithin_pretty document 0 (Nat.le_refl _) (by rintro c ⟨⟩)
  rw [List.append_nil] at hread
  rw [parse, pretty, String.toList_ofList, hread]
  rfl

end TerminalRelay.Json
