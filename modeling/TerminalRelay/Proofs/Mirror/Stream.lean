import TerminalRelay.Proofs.Mirror.Basic
import TerminalRelay.Proofs.Sequence.Open

namespace TerminalRelay.Mirror

open Sequence

theorem kept_of_backspaces {inner : Bytes} (h : Backspaces inner) : kept inner = [] := by
  apply List.filter_eq_nil_iff.mpr
  intro byte hmem
  simp [h byte hmem]

theorem backspaces_of_backspaces {inner : Bytes} (h : Backspaces inner) :
    backspaces inner = inner := by
  apply List.filter_eq_self.mpr
  intro byte hmem
  simp [h byte hmem]

theorem backspaces_of_kept {raw : Bytes} (h : kept raw = []) : Backspaces raw := by
  intro byte hmem
  have hnone := List.filter_eq_nil_iff.mp h byte hmem
  simpa using hnone

-- An ESC with nothing but backspaces behind it has only begun a sequence.
theorem begun_of_backspaces {limit : Nat} (hlimit : 2 ≤ limit) {inner : Bytes}
    (h : Backspaces inner) :
    Open (Byte.escape :: kept inner) ∧ (Byte.escape :: kept inner).length ≤ limit := by
  rw [kept_of_backspaces h]
  exact ⟨.escape, Nat.le_of_succ_le hlimit⟩

theorem Title.cons {byte : UInt8} {more left : Bytes}
    (hbyte : byte ∉ [Byte.carriageReturn, Byte.bel, Byte.escape]) (h : Title more left) :
    Title (byte :: more) left := by
  have hcons : ∀ {text : Bytes}, TitleText text → TitleText (byte :: text) := by
    intro text htext b hb
    rcases List.mem_cons.mp hb with rfl | hb
    · exact hbyte
    · exact htext b hb
  cases h with
  | unended _ htext => exact .unended (byte :: more) (hcons htext)
  | unendedEscape text inner htext hinner =>
      exact .unendedEscape (byte :: text) inner (hcons htext) hinner
  | bel text _ htext => exact .bel (byte :: text) left (hcons htext)
  | carriageReturn text rest htext => exact .carriageReturn (byte :: text) rest (hcons htext)
  | escapeBackslash text inner _ htext hinner =>
      exact .escapeBackslash (byte :: text) inner left (hcons htext) hinner
  | escapeBel text inner _ htext hinner =>
      exact .escapeBel (byte :: text) inner left (hcons htext) hinner
  | escapeCarriageReturn text inner rest htext hinner =>
      exact .escapeCarriageReturn (byte :: text) inner rest (hcons htext) hinner
  | escapeOther text inner b rest htext hinner hb =>
      exact .escapeOther (byte :: text) inner b rest (hcons htext) hinner hb

-- Behind an ESC inside a title, once its backspaces are passed over
theorem exists_title_escape (inner rest : Bytes) (hinner : Backspaces inner) :
    ∃ left, Title (Byte.escape :: (inner ++ rest)) left ∧ left.length ≤ rest.length + 1 := by
  have htext : TitleText [] := by simp [TitleText]
  induction rest generalizing inner with
  | nil =>
      refine ⟨[Byte.escape], ?_, Nat.le_refl _⟩
      rw [List.append_nil]
      exact .unendedEscape [] inner htext hinner
  | cons byte rest ih =>
      by_cases hbackspace : byte = Byte.backspace
      · have hinner' : Backspaces (inner ++ [byte]) := by
          intro b hb
          rcases List.mem_append.mp hb with hb | hb
          · exact hinner b hb
          · rw [List.mem_singleton.mp hb, hbackspace]
        obtain ⟨left, htitle, hlength⟩ := ih (inner ++ [byte]) hinner'
        rw [List.append_assoc] at htitle
        exact ⟨left, htitle, Nat.le_succ_of_le hlength⟩
      by_cases hreturn : byte = Byte.carriageReturn
      · subst hreturn
        exact ⟨_, .escapeCarriageReturn [] inner rest htext hinner, Nat.le_succ _⟩
      by_cases hbel : byte = Byte.bel
      · subst hbel
        exact ⟨_, .escapeBel [] inner rest htext hinner, by simp only [List.length_cons]; omega⟩
      by_cases hbackslash : byte = Byte.backslash
      · subst hbackslash
        exact ⟨_, .escapeBackslash [] inner rest htext hinner,
          by simp only [List.length_cons]; omega⟩
      · refine ⟨_, .escapeOther [] inner byte rest htext hinner ?_, Nat.le_refl _⟩
        simp [hreturn, hbackspace, hbel, hbackslash]

theorem exists_title (more : Bytes) : ∃ left, Title more left ∧ left.length ≤ more.length := by
  have htext : TitleText [] := by simp [TitleText]
  induction more with
  | nil => exact ⟨[], .unended [] htext, Nat.le_refl _⟩
  | cons byte rest ih =>
      by_cases hreturn : byte = Byte.carriageReturn
      · subst hreturn
        exact ⟨_, .carriageReturn [] rest htext, Nat.le_refl _⟩
      by_cases hbel : byte = Byte.bel
      · subst hbel
        exact ⟨_, .bel [] rest htext, Nat.le_succ _⟩
      by_cases hescape : byte = Byte.escape
      · subst hescape
        exact exists_title_escape [] rest (by simp [Backspaces])
      · obtain ⟨left, htitle, hlength⟩ := ih
        exact ⟨left, htitle.cons (by simp [hreturn, hbel, hescape]), Nat.le_succ_of_le hlength⟩

-- A stream goes on with text, with a title or with a sequence, where sequences of up to `limit`
-- bytes are kept. A sequence comes to its final byte, or to a byte for which its store has no room,
-- or breaks off before that; or else the stream ends first.
theorem stretch_induction {limit : Nat} (hlimit : 2 ≤ limit) {p : Bytes → Prop} (nil : p [])
    (byte : ∀ byte rest, byte ≠ Byte.escape → p rest → p (byte :: rest))
    (whole : ∀ raw final rest, (Byte.escape :: kept raw).length < limit →
      Complete (Byte.escape :: (kept raw ++ [final])) → p rest →
      p (Byte.escape :: (raw ++ final :: rest)))
    (full : ∀ raw byte rest, Open (Byte.escape :: kept raw) →
      (Byte.escape :: kept raw).length = limit → byte ≠ Byte.backspace →
      (∀ later : Bytes, later.length ≤ (byte :: rest).length → p later) →
      p (Byte.escape :: (raw ++ byte :: rest)))
    (broken : ∀ raw byte rest, Open (Byte.escape :: kept raw) →
      (Byte.escape :: kept raw).length < limit → Breaks limit (Byte.escape :: kept raw) byte →
      p (byte :: rest) → p (Byte.escape :: (raw ++ byte :: rest)))
    (unended : ∀ raw, Open (Byte.escape :: kept raw) →
      (Byte.escape :: kept raw).length ≤ limit → p (Byte.escape :: raw))
    (title : ∀ inner more left, Backspaces inner → Title more left → p left →
      p (Byte.escape :: (inner ++ ']'.toUInt8 :: more)))
    (bytes : Bytes) : p bytes := by
  induction bytes using stream_induction with
  | nil => exact nil
  | byte first rest hescape ih => exact byte first rest hescape ih
  | escape rest later =>
      have hbegun : (Byte.escape :: kept []).length ≤ limit := Nat.le_of_succ_le hlimit
      rcases exists_stop [] rest .escape hbegun with
        ⟨hopen, hfits⟩ | ⟨raw, last, more, rfl, hopen, hfits, hbackspace, hend⟩
      · exact unended _ hopen hfits
      have hlater : ∀ bytes : Bytes, bytes.length ≤ (last :: more).length → p bytes := by
        intro bytes hle
        refine later bytes (Nat.le_trans hle ?_)
        rw [List.length_append]
        exact Nat.le_add_left _ _
      by_cases hfull : (Byte.escape :: kept raw).length = limit
      · exact full raw last more hopen hfull hbackspace hlater
      have hroom : (Byte.escape :: kept raw).length < limit := by omega
      by_cases hcomplete : Complete (Byte.escape :: (kept raw ++ [last]))
      · exact whole raw last more hroom hcomplete (hlater more (Nat.le_succ _))
      by_cases htitle : Byte.escape :: (kept raw ++ [last]) = [Byte.escape, ']'.toUInt8]
      · have hpair : kept raw ++ [last] = [] ++ [']'.toUInt8] := (List.cons.inj htitle).2
        obtain ⟨hnil, rfl⟩ := List.append_singleton_inj.mp hpair
        obtain ⟨left, htitle, hlength⟩ := exists_title more
        exact title raw more left (backspaces_of_kept hnil) htitle
          (hlater left (Nat.le_succ_of_le hlength))
      · have hbreaks : Breaks limit (Byte.escape :: kept raw) last :=
          ⟨hbackspace, .inr ⟨hend.resolve_left hfull, hcomplete, htitle⟩⟩
        exact broken raw last more hopen hroom hbreaks (hlater _ (Nat.le_refl _))

end TerminalRelay.Mirror
