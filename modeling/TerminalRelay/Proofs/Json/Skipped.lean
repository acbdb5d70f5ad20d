import TerminalRelay.Proofs.Json.Lexical

namespace TerminalRelay.Json

variable {fuel : Nat} {symbol : Symbol} {text after next rest : List Char}

-- The rules by which values are passed over

theorem skipValueWithin_dropBlanks (fuel : Nat) (text : List Char) :
    skipValueWithin fuel (dropBlanks text) = skipValueWithin fuel text := by
  cases fuel with
  | zero => rfl
  | succ fuel => rw [skipValueWithin, skipValueWithin, dropBlanks_dropBlanks]

theorem skipItemsWithin_dropBlanks (fuel : Nat) (text : List Char) :
    skipItemsWithin fuel (dropBlanks text) = skipItemsWithin fuel text := by
  cases fuel with
  | zero => rfl
  | succ fuel => rw [skipItemsWithin, skipItemsWithin, skipValueWithin_dropBlanks]

theorem skipMembersWithin_dropBlanks (fuel : Nat) (text : List Char) :
    skipMembersWithin fuel (dropBlanks text) = skipMembersWithin fuel text := by
  cases fuel with
  | zero => rfl
  | succ fuel => rw [skipMembersWithin, skipMembersWithin, dropBlanks_dropBlanks]

theorem skipValueWithin_number (h : IsNumber text) (hrest : EndsNumber rest) (fuel : Nat) :
    skipValueWithin (fuel + 1) (text ++ rest) = .ok rest := by
  have hskip := h.skipNumber_append hrest
  obtain ⟨c, more, rfl, hc⟩ := h.exists_cons
  have hne {d : Char} (hminus : d ≠ '-') (hdigit : d.isDigit = false) : c ≠ d := by
    rintro rfl
    exact hc.elim hminus (by simp [hdigit])
  have hblank : isBlank c = false := by
    simp [isBlank, hne (d := ' '), hne (d := '\n'), hne (d := '\t'), hne (d := '\r')]
  rw [List.cons_append, skipValueWithin, dropBlanks_cons hblank]
  dsimp only
  rw [if_neg (hne (by decide) rfl), if_neg (hne (by decide) rfl), if_neg (hne (by decide) rfl),
    if_neg (hne (by decide) rfl), if_pos hc]
  exact hskip

-- A list that can be passed over is not closed at once, nor does its text end there.
theorem skipItemsWithin_start (h : skipItemsWithin fuel text = .ok rest) :
    ∃ c more, dropBlanks text = c :: more ∧ c ≠ ']' := by
  rw [← skipItemsWithin_dropBlanks] at h
  cases hdrop : dropBlanks text with
  | nil =>
      rw [hdrop] at h
      rcases fuel with - | - | fuel <;> cases h
  | cons c more =>
      refine ⟨c, more, rfl, ?_⟩
      rintro rfl
      rw [hdrop] at h
      rcases fuel with - | - | fuel <;> cases h

theorem skipMembersWithin_start (h : skipMembersWithin fuel text = .ok rest) :
    ∃ c more, dropBlanks text = c :: more ∧ c ≠ '\x7d' := by
  rw [← skipMembersWithin_dropBlanks] at h
  cases hdrop : dropBlanks text with
  | nil =>
      rw [hdrop] at h
      cases fuel <;> cases h
  | cons c more =>
      refine ⟨c, more, rfl, ?_⟩
      rintro rfl
      rw [hdrop] at h
      cases fuel <;> cases h

theorem skipValueWithin_emptyArray (h : dropBlanks text = ']' :: rest) :
    skipValueWithin (fuel + 1) ('[' :: text) = .ok rest := by
  rw [skipValueWithin, dropBlanks_cons rfl]
  simp [h]

theorem skipValueWithin_emptyObject (h : dropBlanks text = '\x7d' :: rest) :
    skipValueWithin (fuel + 1) ('\x7b' :: text) = .ok rest := by
  rw [skipValueWithin, dropBlanks_cons rfl]
  simp [h]

theorem skipValueWithin_array (h : skipItemsWithin fuel text = .ok rest) :
    skipValueWithin (fuel + 1) ('[' :: text) = .ok rest := by
  obtain ⟨c, more, hdrop, hc⟩ := skipItemsWithin_start h
  rw [← skipItemsWithin_dropBlanks, hdrop] at h
  rw [skipValueWithin, dropBlanks_cons rfl]
  simpa [hdrop, hc] using h

theorem skipValueWithin_object (h : skipMembersWithin fuel text = .ok rest) :
    skipValueWithin (fuel + 1) ('\x7b' :: text) = .ok rest := by
  obtain ⟨c, more, hdrop, hc⟩ := skipMembersWithin_start h
  rw [← skipMembersWithin_dropBlanks, hdrop] at h
  rw [skipValueWithin, dropBlanks_cons rfl]
  simpa [hdrop, hc] using h

theorem skipItemsWithin_last (h : skipValueWithin fuel text = .ok after)
    (hafter : dropBlanks after = ']' :: rest) : skipItemsWithin (fuel + 1) text = .ok rest := by
  rw [skipItemsWithin, h]
  dsimp only [bind, Except.bind]
  rw [hafter]
  rfl

theorem skipItemsWithin_more (h : skipValueWithin fuel text = .ok after)
    (hafter : dropBlanks after = ',' :: next) :
    skipItemsWithin (fuel + 1) text = skipItemsWithin fuel next := by
  rw [skipItemsWithin, h]
  dsimp only [bind, Except.bind]
  rw [hafter]
  rfl

-- That a member can be passed over, up to what stands behind its value and the blanks there
def PassesMember (fuel : Nat) (text after : List Char) : Prop :=
  ∃ key colon value, dropBlanks text = '"' :: key ∧ skipString key = .ok colon ∧
    dropBlanks colon = ':' :: value ∧ skipValueWithin fuel value = .ok after

theorem skipMembersWithin_last (h : PassesMember fuel text after)
    (hafter : dropBlanks after = '\x7d' :: rest) :
    skipMembersWithin (fuel + 1) text = .ok rest := by
  obtain ⟨key, colon, value, hquote, hkey, hcolon, hvalue⟩ := h
  rw [skipMembersWithin, hquote]
  simp only [hkey, hcolon, hvalue, hafter, bind, Except.bind]

theorem skipMembersWithin_more (h : PassesMember fuel text after)
    (hafter : dropBlanks after = ',' :: next) :
    skipMembersWithin (fuel + 1) text = skipMembersWithin fuel next := by
  obtain ⟨key, colon, value, hquote, hkey, hcolon, hvalue⟩ := h
  rw [skipMembersWithin, hquote]
  simp only [hkey, hcolon, hvalue, hafter, bind, Except.bind]

-- What it means that a text of this kind is passed over. The fuel covers its length, and two steps
-- for what closes a list
def Symbol.Skipped : Symbol → List Char → Prop
  | .value, text => ∀ fuel rest, text.length ≤ fuel → EndsNumber rest →
      skipValueWithin (fuel + 1) (text ++ rest) = .ok rest
  | .element, text => ∀ fuel rest, text.length ≤ fuel → EndsNumber rest →
      ∃ after, skipValueWithin (fuel + 1) (text ++ rest) = .ok after ∧
        dropBlanks after = dropBlanks rest
  | .elements, text => ∀ fuel rest, text.length + 2 ≤ fuel →
      skipItemsWithin fuel (text ++ ']' :: rest) = .ok rest
  | .member, text => ∀ fuel rest, text.length ≤ fuel → EndsNumber rest →
      ∃ after, PassesMember (fuel + 1) (text ++ rest) after ∧ dropBlanks after = dropBlanks rest
  | .members, text => ∀ fuel rest, text.length + 2 ≤ fuel →
      skipMembersWithin fuel (text ++ '\x7d' :: rest) = .ok rest

-- Whatever the grammar derives is passed over.
theorem Derives.skipped (h : Derives symbol text) : symbol.Skipped text := by
  induction h with
  | null =>
      intro fuel rest hfuel hrest
      exact readName_append _ rest
  | truth value =>
      intro fuel rest hfuel hrest
      cases value <;> exact readName_append _ rest
  | number hnumber =>
      intro fuel rest hfuel hrest
      exact skipValueWithin_number hnumber hrest fuel
  | string hstring =>
      intro fuel rest hfuel hrest
      rw [List.cons_append, List.append_assoc, skipValueWithin, dropBlanks_cons rfl]
      exact hstring.skipString_append rest
  | emptyArray hgap =>
      intro fuel rest hfuel hrest
      rw [List.cons_append, List.append_assoc]
      refine skipValueWithin_emptyArray ?_
      rw [hgap.dropBlanks_append]
      exact dropBlanks_cons rfl rest
  | array _ ih =>
      intro fuel rest hfuel hrest
      simp only [List.length_cons, List.length_append, List.length_nil] at hfuel
      rw [List.cons_append, List.append_assoc]
      exact skipValueWithin_array (ih fuel rest (by omega))
  | emptyObject hgap =>
      intro fuel rest hfuel hrest
      rw [List.cons_append, List.append_assoc]
      refine skipValueWithin_emptyObject ?_
      rw [hgap.dropBlanks_append]
      exact dropBlanks_cons rfl rest
  | object _ ih =>
      intro fuel rest hfuel hrest
      simp only [List.length_cons, List.length_append, List.length_nil] at hfuel
      rw [List.cons_append, List.append_assoc]
      exact skipValueWithin_object (ih fuel rest (by omega))
  | @element before text after hbefore _ hafter ih =>
      intro fuel rest hfuel hrest
      simp only [List.length_append] at hfuel
      refine ⟨after ++ rest, ?_, hafter.dropBlanks_append rest⟩
      rw [← skipValueWithin_dropBlanks, List.append_assoc, hbefore.dropBlanks_append,
        skipValueWithin_dropBlanks, List.append_assoc]
      exact ih fuel _ (by omega) (hafter.endsNumber hrest)
  | @lastElement text _ ih =>
      intro fuel rest hfuel
      obtain ⟨fuel, rfl⟩ := Nat.exists_eq_add_of_le' (show 2 ≤ fuel by omega)
      obtain ⟨after, hskip, hafter⟩ := ih fuel _ (by omega) (endsNumber_bracket rest)
      rw [dropBlanks_cons rfl] at hafter
      exact skipItemsWithin_last hskip hafter
  | @moreElements text others _ _ ih ihOthers =>
      intro fuel rest hfuel
      simp only [List.length_append, List.length_cons] at hfuel
      obtain ⟨fuel, rfl⟩ := Nat.exists_eq_add_of_le' (show 2 ≤ fuel by omega)
      obtain ⟨after, hskip, hafter⟩ := ih fuel _ (by omega) (endsNumber_comma _)
      rw [dropBlanks_cons rfl] at hafter
      rw [List.append_assoc, List.cons_append, skipItemsWithin_more hskip hafter]
      exact ihOthers (fuel + 1) rest (by omega)
  | @member before key after text hbefore hkey hafter _ ih =>
      intro fuel rest hfuel hrest
      simp only [List.length_append, List.length_cons] at hfuel
      obtain ⟨behind, hskip, hbehind⟩ := ih fuel rest (by omega) hrest
      have hquote : dropBlanks (before ++ '"' :: (key ++ '"' :: (after ++ ':' :: text)) ++ rest) =
          '"' :: (key ++ '"' :: (after ++ ':' :: (text ++ rest))) := by
        simp only [List.append_assoc, List.cons_append]
        rw [hbefore.dropBlanks_append, dropBlanks_cons rfl]
      have hcolon : dropBlanks (after ++ ':' :: (text ++ rest)) = ':' :: (text ++ rest) := by
        rw [hafter.dropBlanks_append, dropBlanks_cons rfl]
      exact ⟨behind, ⟨_, _, _, hquote, hkey.skipString_append _, hcolon, hskip⟩, hbehind⟩
  | @lastMember text _ ih =>
      intro fuel rest hfuel
      obtain ⟨fuel, rfl⟩ := Nat.exists_eq_add_of_le' (show 2 ≤ fuel by omega)
      obtain ⟨after, hskip, hafter⟩ := ih fuel _ (by omega) (endsNumber_brace rest)
      rw [dropBlanks_cons rfl] at hafter
      exact skipMembersWithin_last hskip hafter
  | @moreMembers text others _ _ ih ihOthers =>
      intro fuel rest hfuel
      simp only [List.length_append, List.length_cons] at hfuel
      obtain ⟨fuel, rfl⟩ := Nat.exists_eq_add_of_le' (show 2 ≤ fuel by omega)
      obtain ⟨after, hskip, hafter⟩ := ih fuel _ (by omega) (endsNumber_comma _)
      rw [dropBlanks_cons rfl] at hafter
      rw [List.append_assoc, List.cons_append, skipMembersWithin_more hskip hafter]
      exact ihOthers (fuel + 1) rest (by omega)

theorem Derives.skipValue_append (h : Derives .element text) (hrest : EndsNumber rest) :
    ∃ after, skipValue (text ++ rest) = .ok after ∧ dropBlanks after = dropBlanks rest := by
  have hfuel : text.length ≤ (text ++ rest).length := by simp
  exact h.skipped _ rest hfuel hrest

end TerminalRelay.Json
