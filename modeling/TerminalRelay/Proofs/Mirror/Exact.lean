import TerminalRelay.Proofs.Mirror.Pieces
import TerminalRelay.Proofs.Mirror.Reading
import TerminalRelay.Proofs.Mirror.Silent

namespace TerminalRelay

namespace Reader

open Mirror (data)

variable {capacity : Nat}

-- Where there is nothing to report, viewers are shown nothing.
theorem Silent.mirrored {reader next : Reader} {bytes : Bytes}
    (h : Silent capacity reader bytes next) (rest : Bytes) :
    mirrored capacity reader (bytes ++ rest) = mirrored capacity next rest := by
  induction h with
  | nil reader => rfl
  | cons hread h ih =>
      rw [List.cons_append, mirrored_cons, hread, ih]
      rfl

theorem mirrored_titleText {text : Bytes} (htext : Mirror.TitleText text) (rest : Bytes) :
    mirrored capacity ⟨.title false, []⟩ (text ++ rest) =
      mirrored capacity ⟨.title false, []⟩ rest :=
  (silent_text htext).mirrored rest

theorem mirrored_titleEscape {text : Bytes} (htext : Mirror.TitleText text) {inner : Bytes}
    (hinner : Mirror.Backspaces inner) (rest : Bytes) :
    mirrored capacity ⟨.title false, []⟩ (text ++ Byte.escape :: (inner ++ rest)) =
      mirrored capacity ⟨.title true, []⟩ rest := by
  rw [mirrored_titleText htext, ← List.cons_append]
  exact (silent_escape hinner).mirrored rest

theorem mirrored_title {more left : Bytes} (htitle : Mirror.Title more left) :
    mirrored capacity ⟨.title false, []⟩ more = mirrored capacity ground left := by
  cases htitle with
  | unended _ htext =>
      have h : mirrored capacity ⟨.title false, []⟩ (more ++ []) = [] := mirrored_titleText htext []
      rw [List.append_nil] at h
      exact h
  | unendedEscape text inner htext hinner =>
      have h : mirrored capacity ⟨.title false, []⟩ (text ++ Byte.escape :: (inner ++ [])) =
          data [Byte.escape] := mirrored_titleEscape htext hinner []
      rw [List.append_nil] at h
      exact h
  | bel text rest htext =>
      rw [mirrored_titleText htext]
      rfl
  | carriageReturn text rest htext =>
      rw [mirrored_titleText htext]
      rfl
  | escapeBackslash text inner rest htext hinner =>
      rw [mirrored_titleEscape htext hinner]
      rfl
  | escapeBel text inner rest htext hinner =>
      rw [mirrored_titleEscape htext hinner]
      rfl
  | escapeCarriageReturn text inner rest htext hinner =>
      rw [mirrored_titleEscape htext hinner]
      rfl
  | escapeOther text inner byte rest htext hinner hbyte =>
      have hstart : read capacity ground Byte.escape = (opened, {}) := rfl
      rw [mirrored_titleEscape htext hinner, mirrored_cons, read_titleOther hbyte, mirrored_cons,
        hstart]
      exact (mirrored_cons opened byte rest).symm

end Reader

namespace Mirror

open Sequence

variable {limit : Nat}

theorem ShownAs.complete {sequence : Bytes} {items : List Transport.Item}
    (h : ShownAs sequence items) : Complete sequence := by
  cases h with
  | switch digits on hmode =>
      refine .control _ _ ?_ (by cases on <;> decide)
      intro byte hmem
      rcases List.mem_cons.mp hmem with rfl | hmem
      · decide
      · exact isParameter_of_isDigit (hmode.1.1 byte hmem)
  | plain _ hcomplete hother => exact hcomplete

-- What the relation allows is what the reader shows.
theorem eq_mirrored (hlimit : 2 ≤ limit) {bytes : Bytes} {items : List Transport.Item}
    (h : Mirror limit bytes items) : items = Reader.ground.mirrored limit bytes := by
  induction h with
  | nil => rfl
  | byte hbyte h ih => rw [Reader.mirrored_text hbyte, ih]
  | @sequence raw final rest shown items hfits hshown h ih =>
      have hcomplete := hshown.complete
      rw [← List.cons_append] at hcomplete
      obtain ⟨hopen, hfinal⟩ := hcomplete.open (List.cons_ne_nil _ _)
      obtain ⟨hnext, hitems⟩ := Reader.readScanned_shownAs hshown final
      have hread := Reader.read_ordinary limit (Byte.ordinary_of_ge hfinal)
        ⟨.collecting, Byte.escape :: kept raw⟩
      dsimp only at hread
      rw [Reader.readHeld_of_lt (ne_escape hfinal) hfits, List.cons_append] at hread
      rw [Reader.mirrored_collecting hopen (Nat.le_of_lt hfits), Reader.mirrored_cons, hread, hnext,
        hitems, ← ih, List.append_assoc]
  | broken hopen hfits hbreaks h ih =>
      rw [Reader.mirrored_collecting hopen hfits, Reader.mirrored_breaks hopen hfits hbreaks, ← ih,
        List.append_assoc]
  | @unended raw hopen hfits =>
      have h := Reader.mirrored_collecting hopen hfits []
      rw [List.append_nil] at h
      exact h.symm
  | @title inner more left items hinner htitle h ih =>
      have hkept := kept_of_backspaces hinner
      obtain ⟨hopen, hfits⟩ := begun_of_backspaces hlimit hinner
      have hread : Reader.read limit ⟨.collecting, [Byte.escape]⟩ ']'.toUInt8 =
          (⟨.title false, []⟩, {}) := Reader.read_titleIntroducer hlimit
      rw [Reader.mirrored_collecting hopen hfits, hkept, backspaces_of_backspaces hinner,
        Reader.mirrored_cons, hread, Reader.mirrored_title htitle, ← ih]
      rfl

theorem exists_mirror (hlimit : 2 ≤ limit) (bytes : Bytes) : ∃ items, Mirror limit bytes items := by
  obtain ⟨pieces, h⟩ := Pieces.exists_pieces hlimit bytes
  exact ⟨_, h.mirror⟩

-- The relation says for every stream what is shown of it, and nothing else.
theorem mirror_iff (hlimit : 2 ≤ limit) (bytes : Bytes) (items : List Transport.Item) :
    Mirror limit bytes items ↔ items = Reader.ground.mirrored limit bytes := by
  refine ⟨eq_mirrored hlimit, ?_⟩
  intro heq
  obtain ⟨items', h⟩ := exists_mirror hlimit bytes
  rw [heq, ← eq_mirrored hlimit h]
  exact h

end Mirror

end TerminalRelay
