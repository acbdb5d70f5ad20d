import TerminalRelay.Proofs.Terminal.Recent
import TerminalRelay.Proofs.Terminal.Text

namespace TerminalRelay

namespace Phase

-- Inside a sequence, whether its store holds all of it or not
def inSequence : Phase → Bool
  | collecting | overlong => true
  | normal | title _ => false

-- Both inside a sequence, or both in the same phase outside of one
def Matches (p q : Phase) : Prop :=
  p.inSequence = q.inSequence ∧ (p.inSequence = false → p = q)

theorem Matches.symm {p q : Phase} (h : p.Matches q) : q.Matches p :=
  ⟨h.1.symm, fun hnot => (h.2 (h.1.trans hnot)).symm⟩

-- What becomes of a byte depends on no more than that.
theorem Matches.writes {p q : Phase} (h : p.Matches q) (byte : UInt8) :
    p.writes byte = q.writes byte := by
  obtain ⟨hsame, houtside⟩ := h
  cases hp : p.inSequence with
  | false => rw [houtside hp]
  | true =>
      have hq := hsame.symm.trans hp
      cases p <;> cases q <;> simp_all [inSequence, Phase.writes]

theorem Matches.titleText {p q : Phase} (h : p.Matches q) :
    p = .title false ↔ q = .title false := by
  constructor
  · rintro rfl
    exact (h.2 rfl).symm
  · rintro rfl
    exact h.2 h.1

end Phase

namespace Sequence

-- The bytes that end a sequence of ESC and intermediates, but go on with a control sequence
def IsLowFinal (byte : UInt8) : Prop :=
  0x30 ≤ byte ∧ byte ≤ 0x3f

instance : DecidablePred IsLowFinal := fun _ => inferInstanceAs (Decidable (_ ∧ _))

-- There is an ESC with so many intermediates behind it that a store of `low` bytes is full of them
-- while one of `high` bytes is not, and then one of these final bytes. Backspaces do not count.
def Misread (low high : Nat) (bytes : Bytes) : Prop :=
  ∃ before raw final after, bytes = before ++ Byte.escape :: (raw ++ final :: after) ∧
    (∀ byte ∈ kept raw, IsIntermediate byte) ∧ low ≤ (kept raw).length + 1 ∧
    (kept raw).length + 1 < high ∧ IsLowFinal final

theorem IsIntermediate.parameter {byte : UInt8} (h : IsIntermediate byte) : IsParameter byte :=
  ⟨h.1, UInt8.le_trans h.2 (by decide)⟩

theorem IsLowFinal.parameter {byte : UInt8} (h : IsLowFinal byte) : IsParameter byte :=
  ⟨UInt8.le_trans (by decide) h.1, h.2⟩

theorem IsLowFinal.not_intermediate {byte : UInt8} (h : IsLowFinal byte) :
    ¬ IsIntermediate byte := by
  intro hintermediate
  exact absurd (UInt8.le_trans h.1 hintermediate.2) (by decide)

theorem IsLowFinal.escapeFinal {byte : UInt8} (h : IsLowFinal byte) : IsEscapeFinal byte :=
  ⟨h.1, UInt8.le_trans h.2 (by decide)⟩

theorem isLowFinal_of_parameter {byte : UInt8} (h : IsParameter byte)
    (hnot : ¬ IsIntermediate byte) : IsLowFinal byte := by
  simp only [IsParameter, IsIntermediate, IsLowFinal, UInt8.le_iff_toNat_le,
    UInt8.reduceToNat] at h hnot ⊢
  omega

-- Past its second byte a sequence stays open with parameters, or with intermediates alone.
theorem Open.parameter {held : Bytes} {byte : UInt8} (hopen : Open (held ++ [byte]))
    (hlength : 2 ≤ held.length) : IsParameter byte := by
  obtain ⟨first, second, rest, rfl⟩ : ∃ first second rest, held = first :: second :: rest := by
    match held, hlength with
    | first :: second :: rest, _ => exact ⟨first, second, rest, rfl⟩
  generalize hwhole : first :: second :: rest ++ [byte] = whole at hopen
  cases hopen with
  | escape => simp at hwhole
  | control body hbody =>
      simp only [List.cons_append, List.cons.injEq] at hwhole
      exact hbody byte (by simp [← hwhole.2.2])
  | intermediates bytes hne hbytes =>
      simp only [List.cons_append, List.cons.injEq] at hwhole
      exact (hbytes byte (by simp [← hwhole.2])).parameter

theorem Open.intermediates_of_not_append {held : Bytes} {byte : UInt8} (hopen : Open held)
    (hlength : 2 ≤ held.length) (hparameter : IsParameter byte) (hnot : ¬ Open (held ++ [byte])) :
    ∃ bytes, held = Byte.escape :: bytes ∧ (∀ b ∈ bytes, IsIntermediate b) ∧ IsLowFinal byte := by
  cases hopen with
  | escape => exact absurd hlength (by simp)
  | control body hbody =>
      refine absurd (Open.control (body ++ [byte]) ?_) hnot
      simpa [or_imp, forall_and] using ⟨hbody, hparameter⟩
  | intermediates bytes hne hbytes =>
      refine ⟨bytes, rfl, hbytes, isLowFinal_of_parameter hparameter ?_⟩
      intro hintermediate
      refine hnot (.intermediates (bytes ++ [byte]) (by simp) ?_)
      simpa [or_imp, forall_and] using ⟨hbytes, hintermediate⟩

end Sequence

namespace Reader

open Sequence (Open IsIntermediate IsParameter IsLowFinal Misread kept)

-- The byte ends the sequence being collected, but would not do so for a reader whose store of
-- `low` bytes it had outgrown.
def Misreads (low high : Nat) (reader : Reader) (byte : UInt8) : Prop :=
  ∃ bytes, reader = ⟨.collecting, Byte.escape :: bytes⟩ ∧ (∀ b ∈ bytes, IsIntermediate b) ∧
    low ≤ bytes.length + 1 ∧ bytes.length + 1 < high ∧ IsLowFinal byte

-- Two readers of one stream, the first with a store of `low` bytes and the second with one of
-- `high`. They are apart only while a sequence has outgrown the first store.
inductive Tracks (low high : Nat) : Reader → Reader → Prop
  | same {reader : Reader} (hcoherent : reader.Coherent low) (hphase : reader.phase ≠ .overlong) :
      Tracks low high reader reader
  | outgrown {held whole : Bytes} (hopen : Open whole) (hlong : low ≤ whole.length)
      (hfits : whole.length ≤ high) : Tracks low high ⟨.overlong, held⟩ ⟨.collecting, whole⟩
  | overlong (held held' : Bytes) : Tracks low high ⟨.overlong, held⟩ ⟨.overlong, held'⟩

variable {low high capacity : Nat} {small large : Reader} {held held' whole : Bytes} {byte : UInt8}

theorem Tracks.matches (h : Tracks low high small large) : small.phase.Matches large.phase := by
  cases h with
  | same hcoherent hphase => exact ⟨rfl, fun _ => rfl⟩
  | outgrown hopen hlong hfits => exact ⟨rfl, nofun⟩
  | overlong held held' => exact ⟨rfl, fun _ => rfl⟩

theorem tracks_ground : Tracks low high ground ground :=
  .same (coherent_ground low) (by decide)

theorem tracks_opened (hlow : 8 ≤ low) : Tracks low high opened opened :=
  .same (coherent_opened (by omega)) (by decide)

theorem readOverlong_fst (held : Bytes) (byte : UInt8) : (readOverlong held byte).1 =
    if IsParameter byte then ⟨.overlong, held⟩
    else if byte = Byte.escape then opened
    else ground := by
  unfold readOverlong
  split
  · rfl
  split
  · rename_i hfinal
    rw [if_neg (ne_escape (UInt8.le_trans (by decide) hfinal.1))]
  · split <;> rfl

theorem tracks_readOverlong (hlow : 8 ≤ low) (held held' : Bytes) (byte : UInt8) :
    Tracks low high (readOverlong held byte).1 (readOverlong held' byte).1 := by
  rw [readOverlong_fst, readOverlong_fst]
  split
  · exact .overlong held held'
  split
  · exact tracks_opened hlow
  · exact tracks_ground

-- A byte that does not leave its sequence open ends it, if it is not the one that opens a title.
theorem readScanned_ground (hopen : Open whole) (hlength : 2 ≤ whole.length)
    (hnot : ¬ Open (whole ++ [byte])) :
    (readScanned (whole ++ [byte]) byte (Sequence.scan (whole ++ [byte]))).1 = ground := by
  have htitle : Sequence.scan (whole ++ [byte]) ≠ .title := by
    cases hopen with
    | escape => exact absurd hlength (by simp)
    | control body hbody =>
        rw [List.cons_append, List.cons_append, Sequence.scan_control]
        split
        · simp
        split
        · unfold Sequence.controlMeaning
          split <;> simp
        · simp
    | intermediates bytes hne hbytes =>
        rw [List.cons_append, Sequence.scan_intermediates bytes byte hne hbytes]
        split
        · simp
        · split <;> simp
  cases hscan : Sequence.scan (whole ++ [byte]) with
  | pending => exact absurd (hopen.append hscan) hnot
  | title => exact absurd hscan htitle
  | known action => rfl
  | unknown =>
      dsimp only [readScanned]
      split <;> rfl
  | aborted => rfl

-- A sequence goes on alike in the phase that passes it through and in a store with room for it.
theorem tracks_outgrown (hlow : 8 ≤ low) (hopen : Open whole) (hlong : low ≤ whole.length)
    (hfits : whole.length ≤ high) (hescape : byte ≠ Byte.escape)
    (hmisreads : ¬ Misreads low high ⟨.collecting, whole⟩ byte) (held : Bytes) :
    Tracks low high (readOverlong held byte).1 (readHeld high whole byte).1 := by
  have hlength : 2 ≤ whole.length := by omega
  by_cases hfull : whole.length = high
  · rw [readHeld_of_full hescape hfull]
    exact tracks_readOverlong hlow held whole byte
  have hroom : whole.length < high := by omega
  rw [readOverlong_fst, if_neg hescape, readHeld_of_lt hescape hroom]
  by_cases hnext : Open (whole ++ [byte])
  · rw [if_pos (hnext.parameter hlength), Sequence.scan_open hnext]
    refine .outgrown hnext ?_ ?_
    all_goals
      rw [List.length_append, List.length_singleton]
      omega
  · rw [readScanned_ground hopen hlength hnext]
    -- the sequence is over; what passes it through agrees unless the byte might be a parameter
    by_cases hparameter : IsParameter byte
    · obtain ⟨bytes, rfl, hbytes, hfinal⟩ :=
        hopen.intermediates_of_not_append hlength hparameter hnext
      exact absurd ⟨bytes, rfl, hbytes, hlong, hroom, hfinal⟩ hmisreads
    · rw [if_neg hparameter]
      exact tracks_ground

theorem readScanned_ne_overlong (raw : Bytes) (byte : UInt8) (outcome : Scan) :
    (readScanned raw byte outcome).1.phase ≠ .overlong := by
  cases outcome with
  | pending => simp [readScanned]
  | title => simp [readScanned]
  | known action => simp [readScanned, ground]
  | unknown =>
      dsimp only [readScanned]
      split <;> simp [ground]
  | aborted => simp [readScanned, ground]

-- While there is room in both stores, they read a byte in the same way.
theorem tracks_readHeld (hle : low ≤ high) (hlow : 8 ≤ low) (hopen : Open held)
    (hroom : held.length < low) (byte : UInt8) :
    Tracks low high (readHeld low held byte).1 (readHeld high held byte).1 := by
  by_cases hescape : byte = Byte.escape
  · simp only [readHeld, if_pos hescape]
    exact tracks_opened hlow
  · have hcoherent : (readHeld low held byte).1.Coherent low :=
      coherent_readHeld (by omega) hopen (Nat.le_of_lt hroom) byte
    rw [readHeld_of_lt hescape hroom] at hcoherent ⊢
    rw [readHeld_of_lt hescape (Nat.lt_of_lt_of_le hroom hle)]
    exact .same hcoherent (readScanned_ne_overlong _ _ _)

theorem tracks_collecting (hle : low ≤ high) (hlow : 8 ≤ low) (hopen : Open held)
    (hfits : held.length ≤ low) (hmisreads : ¬ Misreads low high ⟨.collecting, held⟩ byte) :
    Tracks low high (readHeld low held byte).1 (readHeld high held byte).1 := by
  by_cases hroom : held.length < low
  · exact tracks_readHeld hle hlow hopen hroom byte
  by_cases hescape : byte = Byte.escape
  · simp only [readHeld, if_pos hescape]
    exact tracks_opened hlow
  · have hfull : held.length = low := by omega
    rw [readHeld_of_full hescape hfull]
    exact tracks_outgrown hlow hopen (by omega) (Nat.le_trans hfits hle) hescape hmisreads held

-- CR and BEL leave nothing open, and a backspace changes nothing.
theorem Tracks.read_control (h : Tracks low high small large)
    (hbyte : byte = Byte.carriageReturn ∨ byte = Byte.backspace ∨ byte = Byte.bel) :
    Tracks low high (small.read low byte).1 (large.read high byte).1 := by
  have hback (capacity : Nat) (reader : Reader) :
      (reader.read capacity Byte.backspace).1 = reader := by
    rw [Reader.read, if_neg (by decide), if_pos rfl]
    split <;> rfl
  have hbel (capacity : Nat) (reader : Reader) :
      (reader.read capacity Byte.bel).1 = ground := by
    rw [Reader.read, if_neg (by decide), if_neg (by decide), if_pos rfl]
    split <;> rfl
  rcases hbyte with rfl | rfl | rfl
  · exact tracks_ground
  · rw [hback, hback]
    exact h
  · rw [hbel, hbel]
    exact tracks_ground

theorem Tracks.read (h : Tracks low high small large) (hlow : 8 ≤ low) (hle : low ≤ high)
    (hmisreads : ¬ Misreads low high large byte) :
    Tracks low high (small.read low byte).1 (large.read high byte).1 := by
  by_cases hcontrol : byte = Byte.carriageReturn ∨ byte = Byte.backspace ∨ byte = Byte.bel
  · exact h.read_control hcontrol
  simp only [not_or] at hcontrol
  obtain ⟨hreturn, hbackspace, hbel⟩ := hcontrol
  simp only [Reader.read, hreturn, hbackspace, hbel, ite_false]
  cases h with
  | same hcoherent hphase =>
      obtain ⟨phase, held⟩ := small
      cases phase with
      | normal =>
          dsimp only
          split
          · exact tracks_opened hlow
          · exact tracks_ground
      | collecting => exact tracks_collecting hle hlow hcoherent.1 hcoherent.2 hmisreads
      | title sawEscape =>
          cases sawEscape with
          | false =>
              dsimp only
              split
              · exact .same rfl (by decide)
              · exact .same hcoherent hphase
          | true =>
              dsimp only
              split
              · exact tracks_ground
              · exact tracks_readHeld hle hlow .escape (by simp only [List.length_singleton]; omega)
                  byte
      | overlong => exact absurd rfl hphase
  | @outgrown held whole hopen hlong hfits =>
      by_cases hescape : byte = Byte.escape
      · subst hescape
        exact tracks_opened hlow
      · exact tracks_outgrown hlow hopen hlong hfits hescape hmisreads held
  | overlong held held' => exact tracks_readOverlong hlow held held' byte

-- Where the second reader is through with its sequence, the first one still waits for the end.
theorem Tracks.apart (h : Tracks low high small large) (hlow : 8 ≤ low)
    (hmisreads : Misreads low high large byte) :
    ¬ (small.read low byte).1.phase.Matches (large.read high byte).1.phase := by
  obtain ⟨bytes, rfl, hbytes, hlong, hfits, hfinal⟩ := hmisreads
  have hbyte : 0x20 ≤ byte := hfinal.parameter.1
  have hescape : byte ≠ Byte.escape := ne_escape hbyte
  have hne : bytes ≠ [] := by
    rintro rfl
    rw [List.length_nil] at hlong
    omega
  have hlarge : (Reader.read high ⟨.collecting, Byte.escape :: bytes⟩ byte).1 = ground := by
    rw [read_ordinary high (Byte.ordinary_of_ge hbyte)]
    dsimp only
    rw [readHeld_of_lt hescape hfits, List.cons_append,
      Sequence.scan_intermediates bytes byte hne hbytes, if_neg hfinal.not_intermediate,
      if_pos hfinal.escapeFinal]
    dsimp only [readScanned]
    split <;> rfl
  have hpasses (held : Bytes) : (readOverlong held byte).1 = ⟨.overlong, held⟩ := by
    rw [readOverlong_fst, if_pos hfinal.parameter]
  have hsmall : (small.read low byte).1.phase = .overlong := by
    rw [read_ordinary low (Byte.ordinary_of_ge hbyte)]
    cases h with
    | same hcoherent hphase =>
        dsimp only
        rw [readHeld_of_full hescape (Nat.le_antisymm hcoherent.2 hlong), hpasses]
    | outgrown hopen _ _ =>
        dsimp only
        rw [hpasses]
  rw [hsmall, hlarge]
  exact fun hmatches => absurd hmatches.1 (by decide)

-- The streams that two readers with different stores take apart: exactly those with such a piece
theorem Tracks.after (h : Tracks low high small large) (hlow : 8 ≤ low) (hle : low ≤ high)
    (bytes : Bytes) :
    (∀ sofar, sofar <+: bytes →
      (small.after low sofar).phase.Matches (large.after high sofar).phase) ↔
    ∀ sofar byte, sofar ++ [byte] <+: bytes →
      ¬ Misreads low high (large.after high sofar) byte := by
  induction bytes generalizing small large with
  | nil =>
      refine ⟨fun _ sofar byte hprefix => ?_, fun _ sofar hprefix => ?_⟩
      · exact absurd (List.prefix_nil.mp hprefix) (by simp)
      · rw [List.prefix_nil.mp hprefix]
        exact h.matches
  | cons byte rest ih =>
      -- the readers are related up to the first misread byte, and no further
      by_cases hmisreads : Misreads low high large byte
      · refine iff_of_false (fun hall => ?_) (fun hnone => ?_)
        · exact h.apart hlow hmisreads (hall [byte] (List.prefix_append [byte] rest))
        · exact hnone [] byte (List.prefix_append [byte] rest) hmisreads
      · have hnext := ih (h.read hlow hle hmisreads)
        refine ⟨fun hall => ?_, fun hnone => ?_⟩
        · have hrest := hnext.mp fun sofar hprefix =>
            hall (byte :: sofar) (List.cons_prefix_cons.mpr ⟨rfl, hprefix⟩)
          rintro (_ | ⟨first, sofar⟩) last hprefix
          · obtain ⟨rfl, -⟩ := List.cons_prefix_cons.mp hprefix
            exact hmisreads
          · obtain ⟨rfl, htail⟩ := List.cons_prefix_cons.mp hprefix
            exact hrest sofar last htail
        · have hrest := hnext.mpr fun sofar last hprefix =>
            hnone (byte :: sofar) last (List.cons_prefix_cons.mpr ⟨rfl, hprefix⟩)
          rintro (_ | ⟨first, sofar⟩) hprefix
          · exact h.matches
          · obtain ⟨rfl, htail⟩ := List.cons_prefix_cons.mp hprefix
            exact hrest sofar htail

-- Whether a stream has such a piece can be seen without reading it.
theorem misread_iff (hlow : 8 ≤ low) (bytes : Bytes) : Misread low high bytes ↔
    ∃ sofar byte, sofar ++ [byte] <+: bytes ∧ Misreads low high (ground.after high sofar) byte := by
  constructor
  · rintro ⟨before, raw, final, after, rfl, hall, hlong, hfits, hfinal⟩
    have hne : kept raw ≠ [] := by
      intro hnil
      rw [hnil, List.length_nil] at hlong
      omega
    have hreached : ground.after high (before ++ Byte.escape :: raw) =
        ⟨.collecting, Byte.escape :: kept raw⟩ := by
      rw [after_append]
      exact after_intermediates _ hall hne (Nat.le_of_lt hfits)
    refine ⟨before ++ Byte.escape :: raw, final, ⟨after, by simp⟩, ?_⟩
    exact ⟨kept raw, hreached, hall, hlong, hfits, hfinal⟩
  · rintro ⟨sofar, final, ⟨after, rfl⟩, bytes, hreached, hall, hlong, hfits, hfinal⟩
    have hstart : Recent [] ground := trivial
    have hrecent : Recent sofar (ground.after high sofar) := hstart.after sofar
    rw [hreached] at hrecent
    obtain ⟨before, raw, rfl, hheld⟩ := hrecent
    obtain rfl : bytes = kept raw := (List.cons.inj hheld).2
    exact ⟨before, raw, final, after, by simp, hall, hlong, hfits, hfinal⟩

end Reader

namespace Terminal

-- Bytes fed one at a time, whatever becomes of each call
def feedBytes (t : Terminal) (bytes : Bytes) : Terminal :=
  bytes.foldl (fun t byte => (t.feed [byte]).state) t

theorem consumed_singleton (t : Terminal) (byte : UInt8) : t.consumed [byte] = [byte] := by
  rw [consumed]
  obtain ⟨next, error⟩ := t.step byte
  cases error <;> rfl

theorem Sound.feedBytes {t : Terminal} (sound : t.Sound) (bytes : Bytes) :
    (t.feedBytes bytes).Sound ∧ (t.feedBytes bytes).held.capacity = t.held.capacity ∧
      (t.feedBytes bytes).reader = t.reader.after t.held.capacity bytes := by
  induction bytes generalizing t with
  | nil => exact ⟨sound, rfl, rfl⟩
  | cons byte rest ih =>
      obtain ⟨-, hcapacity, hreader⟩ := sound.reader_feed [byte]
      obtain ⟨hsound, hcapacity', hreader'⟩ := ih (sound.feed [byte])
      rw [consumed_singleton] at hreader
      rw [hcapacity, hreader] at hreader'
      exact ⟨hsound, hcapacity'.trans hcapacity, hreader'⟩

-- What the next byte does to the line and the modes
def effect (t : Terminal) (byte : UInt8) : Edit :=
  (t.reader.read t.held.capacity byte).2.edit

-- For each byte whether it is treated as text
def textMarks (t : Terminal) : Bytes → List Bool
  | [] => []
  | byte :: rest => (t.effect byte).isText :: (t.feed [byte]).state.textMarks rest

-- Two terminals that see the same beginnings and ends of sequences and titles in a stream, after
-- each of its bytes, and treat the same of its bytes as text
structure SameBoundaries (t u : Terminal) (bytes : Bytes) : Prop where
  phases : ∀ sofar, sofar <+: bytes → (t.feedBytes sofar).phase.Matches (u.feedBytes sofar).phase
  texts : t.textMarks bytes = u.textMarks bytes

theorem SameBoundaries.symm {t u : Terminal} {bytes : Bytes} (h : t.SameBoundaries u bytes) :
    u.SameBoundaries t bytes :=
  ⟨fun sofar hprefix => (h.phases sofar hprefix).symm, h.texts.symm⟩

theorem Sound.isText_effect {t u : Terminal} (sound : t.Sound) (sound' : u.Sound)
    (h : t.phase.Matches u.phase) (byte : UInt8) :
    (t.effect byte).isText = (u.effect byte).isText := by
  have ht := sound.coherent.isText_edit byte
  have hu := sound'.coherent.isText_edit byte
  simp only [reader] at ht hu
  rw [Bool.eq_iff_iff]
  refine ht.trans (Iff.trans ?_ hu.symm)
  rw [h.writes byte, Ne, Ne, h.titleText]

-- What is text follows from where sequences and titles begin and end.
theorem Sound.textMarks_eq {t u : Terminal} (sound : t.Sound) (sound' : u.Sound) {bytes : Bytes}
    (h : ∀ sofar, sofar <+: bytes →
      (t.feedBytes sofar).phase.Matches (u.feedBytes sofar).phase) :
    t.textMarks bytes = u.textMarks bytes := by
  induction bytes generalizing t u with
  | nil => rfl
  | cons byte rest ih =>
      have hhere : t.phase.Matches u.phase := h [] (List.nil_prefix)
      have hrest := ih (sound.feed [byte]) (sound'.feed [byte]) fun sofar hprefix =>
        h (byte :: sofar) (List.cons_prefix_cons.mpr ⟨rfl, hprefix⟩)
      rw [textMarks, textMarks, sound.isText_effect sound' hhere, hrest]

theorem Sound.sameBoundaries {t u : Terminal} (sound : t.Sound) (sound' : u.Sound)
    (hphase : t.phase = .normal) (hphase' : u.phase = .normal)
    (hle : t.held.capacity ≤ u.held.capacity) (bytes : Bytes) :
    t.SameBoundaries u bytes ↔
      ¬ Sequence.Misread t.held.capacity u.held.capacity bytes := by
  have hstart : Reader.Tracks t.held.capacity u.held.capacity .ground .ground :=
    Reader.tracks_ground
  have hafter := hstart.after sound.roomy hle bytes
  have hphases (sofar : Bytes) : (t.feedBytes sofar).phase =
        (Reader.ground.after t.held.capacity sofar).phase ∧
      (u.feedBytes sofar).phase = (Reader.ground.after u.held.capacity sofar).phase := by
    obtain ⟨-, -, hreader⟩ := sound.feedBytes sofar
    obtain ⟨-, -, hreader'⟩ := sound'.feedBytes sofar
    rw [sound.reader_ground hphase] at hreader
    rw [sound'.reader_ground hphase'] at hreader'
    exact ⟨congrArg Reader.phase hreader, congrArg Reader.phase hreader'⟩
  have hsame : t.SameBoundaries u bytes ↔ ∀ sofar, sofar <+: bytes →
      (t.feedBytes sofar).phase.Matches (u.feedBytes sofar).phase :=
    ⟨fun h => h.phases, fun h => ⟨h, sound.textMarks_eq sound' h⟩⟩
  rw [hsame, Reader.misread_iff sound.roomy]
  simp only [hphases]
  rw [hafter]
  simp only [not_exists, not_and]

-- How much of a sequence can be held makes no difference to where sequences begin and end, except
-- for one that ESC and intermediates make longer than the smaller store: its final byte is passed
-- over if a control sequence would go on with it.
theorem sameBoundaries_iff (config : Config) (limit limit' : Nat) (modes : Modes)
    (plain raw : Option Writer) (bytes : Bytes) :
    let fresh := fun escapeCapacity =>
      { (ofConfig { config with escapeCapacity }).setLogs plain raw with modes }
    (fresh limit).SameBoundaries (fresh limit') bytes ↔
      ¬ Sequence.Misread (max (min limit limit') 8) (max (max limit limit') 8) bytes := by
  intro fresh
  have hreachable (limit : Nat) :
      (fresh limit).Reachable { config with escapeCapacity := limit } :=
    .setModes modes (.setLogs plain raw .start)
  have hcapacity (limit : Nat) : (fresh limit).held.capacity = max limit 8 :=
    (hreachable limit).held_capacity
  have hordered (low high : Nat) (hle : low ≤ high) :
      (fresh low).SameBoundaries (fresh high) bytes ↔
        ¬ Sequence.Misread (max low 8) (max high 8) bytes := by
    have h := (hreachable low).sound.sameBoundaries (hreachable high).sound rfl rfl
      (by rw [hcapacity, hcapacity]; omega) bytes
    rwa [hcapacity, hcapacity] at h
  rcases Nat.le_total limit limit' with hle | hle
  · rw [Nat.min_eq_left hle, Nat.max_eq_right hle]
    exact hordered limit limit' hle
  · rw [Nat.min_eq_right hle, Nat.max_eq_left hle, ← hordered limit' limit hle]
    exact ⟨SameBoundaries.symm, SameBoundaries.symm⟩

-- Seven intermediates fill a store of eight bytes, which then misses the final byte and takes the
-- letter behind it for that.
theorem sameBoundaries_missedFinal :
    let small := ofConfig { escapeCapacity := 8 }
    let large := ofConfig { escapeCapacity := 9 }
    let bytes := [0x1b, 0x20, 0x20, 0x20, 0x20, 0x20, 0x20, 0x20, 0x30]
    (small.feedBytes bytes).phase = .overlong ∧ (large.feedBytes bytes).phase = .normal ∧
      (small.feedBytes (bytes ++ [0x61])).line.toList = [] ∧
      (large.feedBytes (bytes ++ [0x61])).line.toList = [0x61] := by
  decide +kernel

end Terminal

end TerminalRelay
