import TerminalRelay.Proofs.Keys.Consumed
import Mathlib.Data.List.Chain

namespace TerminalRelay

-- Pieces in their order, put into blocks. None of the pieces is cut, no block is longer than the
-- limit, and a block ends only where the next piece would make it so.
structure Packed (limit : Nat) (pieces : List Bytes) (blocks : List (List Bytes)) : Prop where
  whole : blocks.flatten = pieces
  nonempty : ∀ block ∈ blocks, block ≠ []
  fits : ∀ block ∈ blocks, block.flatten.length ≤ limit
  full : blocks.IsChain fun block next => limit < (block ++ next.take 1).flatten.length

namespace Packed

variable {limit : Nat} {pieces : List Bytes} {piece : Bytes} {block : List Bytes}
  {blocks others : List (List Bytes)}

theorem nil (limit : Nat) : Packed limit [] [] :=
  ⟨rfl, by simp, by simp, .nil⟩

theorem first (hfits : piece.length ≤ limit) : Packed limit [piece] [[piece]] where
  whole := rfl
  nonempty := List.forall_mem_singleton.mpr (by simp)
  fits := List.forall_mem_singleton.mpr (by simpa using hfits)
  full := List.isChain_singleton _

-- A piece for which the last block has room
theorem fill (h : Packed limit pieces (blocks ++ [block]))
    (hroom : block.flatten.length + piece.length ≤ limit) :
    Packed limit (pieces ++ [piece]) (blocks ++ [block ++ [piece]]) where
  whole := by
    rw [← h.whole]
    simp
  nonempty := by
    obtain ⟨hbefore, -⟩ := List.forall_mem_append.mp h.nonempty
    exact List.forall_mem_append.mpr ⟨hbefore, List.forall_mem_singleton.mpr (by simp)⟩
  fits := by
    obtain ⟨hbefore, -⟩ := List.forall_mem_append.mp h.fits
    exact List.forall_mem_append.mpr ⟨hbefore, List.forall_mem_singleton.mpr (by simpa using hroom)⟩
  full := by
    obtain ⟨hbefore, -, hlink⟩ := List.isChain_append.mp h.full
    refine List.isChain_append.mpr ⟨hbefore, List.isChain_singleton _, ?_⟩
    intro last hlast next hnext
    obtain rfl : block ++ [piece] = next := by simpa using hnext
    have hne : block ≠ [] := h.nonempty block (by simp)
    have hfirst : (block ++ [piece]).take 1 = block.take 1 :=
      List.take_append_of_le_length (List.length_pos_iff.mpr hne)
    rw [hfirst]
    exact hlink last hlast block (by simp)

-- A piece for which it has not
theorem overflow (h : Packed limit pieces (blocks ++ [block]))
    (hfits : piece.length ≤ limit) (hfull : limit < block.flatten.length + piece.length) :
    Packed limit (pieces ++ [piece]) (blocks ++ [block] ++ [[piece]]) where
  whole := by
    rw [← h.whole]
    simp
  nonempty := List.forall_mem_append.mpr ⟨h.nonempty, List.forall_mem_singleton.mpr (by simp)⟩
  fits := List.forall_mem_append.mpr
    ⟨h.fits, List.forall_mem_singleton.mpr (by simpa using hfits)⟩
  full := by
    refine List.isChain_append.mpr ⟨h.full, List.isChain_singleton _, ?_⟩
    intro last hlast next hnext
    obtain rfl : block = last := by simpa using hlast
    obtain rfl : [piece] = next := by simpa using hnext
    simpa using hfull

theorem eq_nil (h : Packed limit [] blocks) : blocks = [] := by
  cases blocks with
  | nil => rfl
  | cons block rest =>
      have hwhole := h.whole
      rw [List.flatten_cons, List.append_eq_nil_iff] at hwhole
      exact absurd hwhole.1 (h.nonempty block (by simp))

theorem tail (h : Packed limit pieces (block :: blocks)) :
    Packed limit blocks.flatten blocks where
  whole := rfl
  nonempty other hother := h.nonempty other (.tail _ hother)
  fits other hother := h.fits other (.tail _ hother)
  full := (List.isChain_cons.mp h.full).2

-- A block has no room for the piece that follows it.
theorem full_next (h : Packed limit pieces (block :: blocks)) {rest : List Bytes}
    (hwhole : blocks.flatten = piece :: rest) :
    limit < (block ++ [piece]).flatten.length := by
  cases blocks with
  | nil => exact absurd hwhole (by simp)
  | cons next blocks =>
      obtain ⟨first, more, hnext⟩ := List.exists_cons_of_ne_nil (h.nonempty next (by simp))
      rw [hnext, List.flatten_cons, List.cons_append] at hwhole
      obtain ⟨rfl, -⟩ := List.cons.inj hwhole
      have hfull := (List.isChain_cons.mp h.full).1 next (by simp)
      rwa [hnext] at hfull

-- So no other packing has a longer block there.
theorem not_longer {more : List Bytes} (h : Packed limit pieces (block :: blocks))
    (h' : Packed limit pieces ((block ++ piece :: more) :: others)) : False := by
  have hwhole : block ++ blocks.flatten = block ++ piece :: more ++ others.flatten :=
    h.whole.trans h'.whole.symm
  rw [List.append_assoc] at hwhole
  have hfull := h.full_next (List.append_cancel_left hwhole)
  have hfits := h'.fits _ (.head _)
  simp only [List.flatten_append, List.flatten_cons, List.flatten_nil, List.length_append,
    List.length_nil] at hfull hfits
  omega

-- There is only one way to pack.
theorem unique (h : Packed limit pieces blocks) (h' : Packed limit pieces others) :
    blocks = others := by
  induction blocks generalizing pieces others with
  | nil =>
      obtain rfl : [] = pieces := h.whole
      exact h'.eq_nil.symm
  | cons block rest ih =>
      cases others with
      | nil =>
          obtain rfl : [] = pieces := h'.whole
          exact h.eq_nil
      | cons other others =>
          have hwhole : block ++ rest.flatten = other ++ others.flatten :=
            h.whole.trans h'.whole.symm
          have hsame : block = other := by
            rcases List.append_eq_append_iff.mp hwhole with
              ⟨more, hother, -⟩ | ⟨more, hblock, -⟩
            · cases more with
              | nil => exact (hother.trans (List.append_nil block)).symm
              | cons piece more => exact (h.not_longer (hother ▸ h')).elim
            · cases more with
              | nil => exact hblock.trans (List.append_nil other)
              | cons piece more => exact (h'.not_longer (hblock ▸ h)).elim
          subst hsame
          have hrest := List.append_cancel_left hwhole
          have htail := h'.tail
          rw [← hrest] at htail
          rw [ih h.tail htail]

-- What one block can hold is not divided.
theorem eq_singleton (h : Packed limit pieces blocks) (hne : pieces ≠ [])
    (hfits : pieces.flatten.length ≤ limit) : blocks = [pieces] := by
  have hone : Packed limit pieces [pieces] := by
    refine ⟨List.append_nil pieces, ?_, ?_, List.isChain_singleton _⟩
    · exact List.forall_mem_singleton.mpr hne
    · exact List.forall_mem_singleton.mpr hfits
  exact h.unique hone

end Packed

-- Every answer takes whatever is offered, up to so many bytes.
structure Writer.Roomy (limit : Nat) (writer : Writer) : Prop where
  device : writer.device = .accepting
  script : ∀ answer ∈ writer.script, ∃ room, answer = .take room ∧ limit ≤ room

namespace Writer

variable {limit : Nat} {writer : Writer} {bytes : Bytes}

-- One offer
theorem Roomy.deliver (h : writer.Roomy limit) (target : Target) (hne : bytes ≠ [])
    (hfits : bytes.length ≤ limit) : ∃ reached : Writer,
      writer.deliver target bytes = ⟨reached, none⟩ ∧ reached.Roomy limit ∧
      reached.taken = writer.taken.push bytes ∧ reached.offers = writer.offers + 1 := by
  obtain ⟨script, device, taken, offers⟩ := writer
  obtain ⟨hdevice, hscript⟩ := h
  dsimp only at hdevice hscript
  subst hdevice
  obtain ⟨byte, rest, rfl⟩ := List.exists_cons_of_ne_nil hne
  cases script with
  | nil => exact ⟨_, rfl, ⟨rfl, by simp⟩, rfl, rfl⟩
  | cons answer script =>
      obtain ⟨room, rfl, hroom⟩ := hscript answer (by simp)
      have hpos : room ≠ 0 := by
        rw [List.length_cons] at hfits
        omega
      have htake : (byte :: rest).take room = byte :: rest :=
        List.take_of_length_le (hfits.trans hroom)
      have hdrop : (byte :: rest).drop room = [] := List.drop_eq_nil_of_le (hfits.trans hroom)
      refine ⟨⟨script, .accepting, taken.push (byte :: rest), offers + 1⟩, ?_, ?_, rfl, rfl⟩
      · rw [Writer.deliver, deliverBy, if_neg hpos, htake, hdrop]
        · cases script <;> rfl
        · simp
      · exact ⟨rfl, fun answer hanswer => hscript answer (.tail _ hanswer)⟩

end Writer

namespace Keystroke

-- The keys that strokes mean, whole; there is none for a stroke that sends nothing.
def keys (appCursor : Bool) (strokes : List Keystroke) : List Bytes :=
  (strokes.map (meaning appCursor)).filter (· ≠ [])

theorem keys_append (appCursor : Bool) (first second : List Keystroke) :
    keys appCursor (first ++ second) = keys appCursor first ++ keys appCursor second := by
  rw [keys, List.map_append, List.filter_append, keys, keys]

theorem ne_nil_of_mem_keys {appCursor : Bool} {strokes : List Keystroke} {key : Bytes}
    (h : key ∈ keys appCursor strokes) : key ≠ [] := by
  simpa using List.of_mem_filter h

theorem length_meaning_le (appCursor : Bool) (stroke : Keystroke) :
    (stroke.meaning appCursor).length ≤ 3 := by
  cases stroke <;> simp [meaning]

end Keystroke

-- One more byte completes one stroke at most.
theorem length_keystrokes_le {phase : KeyPhase} (h : phase.Partial) (byte : UInt8) :
    (keystrokes (phase.leftover ++ [byte])).1.length ≤ 1 := by
  cases phase with
  | idle =>
      rw [KeyPhase.leftover, List.nil_append, keystrokes]
      split <;> simp
  | directive =>
      by_cases hbyte : byte = 'w'.toUInt8
      · have hopened : (KeyPhase.windowSize []).Partial := by
          intro field hfield
          cases hfield
          decide
        have hrest := keystrokes_leftover hopened
        rw [hbyte]
        exact Nat.le_trans (Nat.le_of_eq (congrArg (·.1.length) hrest)) (Nat.zero_le 1)
      · rw [KeyPhase.leftover, List.singleton_append, keystrokes_directive hbyte, keystrokes_nil]
        simp [Keystroke.before]
  | windowSize field =>
      have hfield := h field rfl
      by_cases hlast : field.length = 7
      · have hlength : (field ++ [byte]).length = 8 := by
          rw [List.length_append, hlast]
          rfl
        have hwhole := keystrokes_windowSize hlength []
        rw [List.append_nil] at hwhole
        rw [KeyPhase.leftover, List.cons_append, List.cons_append, hwhole, keystrokes_nil]
        simp [Keystroke.before]
      · have hpartial : (KeyPhase.windowSize (field ++ [byte])).Partial := by
          intro other hother
          cases hother
          rw [List.length_append, List.length_singleton]
          omega
        have hrest := keystrokes_leftover hpartial
        rw [KeyPhase.leftover, List.cons_append, List.cons_append]
        rw [KeyPhase.leftover] at hrest
        rw [hrest]
        exact Nat.zero_le _

namespace Typing

variable {typing reached : Typing} {keys : List Bytes} {key : Bytes}
  {blocks : List (List Bytes)}

-- So far these keys were decoded. The blocks but for the last were written, each in one offer, and
-- the last one waits.
structure Gathers (typing : Typing) (keys : List Bytes) (blocks : List (List Bytes))
    (reached : Typing) : Prop where
  packed : Packed bufferCapacity keys blocks
  pending : reached.decoder.pending = (blocks.getLast?.getD []).flatten
  roomy : reached.pty.Roomy bufferCapacity
  taken : reached.pty.taken.toList =
    typing.pty.taken.toList ++ blocks.dropLast.map List.flatten
  offers : reached.pty.offers = typing.pty.offers + blocks.dropLast.length

-- Only the keys that wait and the pty play a part in it.
theorem Gathers.congr {other : Typing} (h : typing.Gathers keys blocks reached)
    (hpending : other.decoder.pending = reached.decoder.pending) (hpty : other.pty = reached.pty) :
    typing.Gathers keys blocks other where
  packed := h.packed
  pending := hpending.trans h.pending
  roomy := hpty ▸ h.roomy
  taken := hpty ▸ h.taken
  offers := hpty ▸ h.offers

theorem Gathers.gather_first (h : typing.Gathers keys [] reached)
    (hfits : key.length ≤ bufferCapacity) :
    typing.Gathers (keys ++ [key]) [[key]] (reached.gather key) := by
  obtain rfl : [] = keys := h.packed.whole
  refine ⟨.first hfits, ?_, h.roomy, h.taken, h.offers⟩
  rw [gather, h.pending]
  simp

theorem Gathers.gather_fill {block : List Bytes}
    (h : typing.Gathers keys (blocks ++ [block]) reached)
    (hroom : block.flatten.length + key.length ≤ bufferCapacity) :
    typing.Gathers (keys ++ [key]) (blocks ++ [block ++ [key]]) (reached.gather key) := by
  refine ⟨h.packed.fill hroom, ?_, h.roomy, ?_, ?_⟩
  · have hpending := h.pending
    rw [List.getLast?_concat] at hpending
    rw [gather, hpending]
    simp
  · have htaken := h.taken
    rw [List.dropLast_concat] at htaken ⊢
    exact htaken
  · have hoffers := h.offers
    rw [List.dropLast_concat] at hoffers ⊢
    exact hoffers

-- What waits is written in one offer.
theorem Gathers.flush {block : List Bytes}
    (h : typing.Gathers keys (blocks ++ [block]) reached) (hne : block.flatten ≠ []) :
    ∃ next, reached.flush = ⟨next, none⟩ ∧ next.decoder.pending = [] ∧
      next.pty.Roomy bufferCapacity ∧
      next.pty.taken.toList =
        typing.pty.taken.toList ++ (blocks ++ [block]).map List.flatten ∧
      next.pty.offers = typing.pty.offers + (blocks ++ [block]).length := by
  have hpending := h.pending
  have htaken := h.taken
  have hoffers := h.offers
  rw [List.getLast?_concat, Option.getD_some] at hpending
  rw [List.dropLast_concat] at htaken hoffers
  have hfits : block.flatten.length ≤ bufferCapacity := h.packed.fits block (by simp)
  obtain ⟨pty, hdeliver, hroomy, htaken', hoffers'⟩ := h.roomy.deliver .pty hne hfits
  refine ⟨{ reached with decoder := { reached.decoder with pending := [] }, pty }, ?_, rfl, hroomy,
    ?_, ?_⟩
  · rw [Typing.flush, hpending, hdeliver]
  · rw [htaken', Array.toList_push, htaken, List.map_append, List.append_assoc]
    rfl
  · rw [hoffers', hoffers, List.length_append]
    rfl

-- A key that does not fit beside those that wait makes them be written first.
theorem Gathers.queue (h : typing.Gathers keys blocks reached)
    (hfits : key.length ≤ bufferCapacity) :
    ∃ next blocks', reached.queue key = ⟨next, none⟩ ∧
      typing.Gathers (keys ++ [key]) blocks' next := by
  rcases List.eq_nil_or_concat' blocks with rfl | ⟨before, block, rfl⟩
  · have hpending : reached.decoder.pending = [] := h.pending
    refine ⟨reached.gather key, [[key]], ?_, h.gather_first hfits⟩
    rw [Typing.queue, hpending, if_pos (by simpa using hfits)]
  · have hpending := h.pending
    rw [List.getLast?_concat, Option.getD_some] at hpending
    rw [Typing.queue, hpending]
    by_cases hroom : block.flatten.length + key.length ≤ bufferCapacity
    · rw [if_pos hroom]
      exact ⟨_, _, rfl, h.gather_fill hroom⟩
    · rw [if_neg hroom]
      have hne : block.flatten ≠ [] := by
        intro hnil
        rw [hnil] at hroom
        exact hroom (by simpa using hfits)
      obtain ⟨next, hflush, hnone, hroomy, htaken, hoffers⟩ := h.flush hne
      rw [hflush]
      refine ⟨next.gather key, before ++ [block] ++ [[key]], rfl, ?_⟩
      refine ⟨h.packed.overflow hfits (Nat.lt_of_not_le hroom), ?_, hroomy, ?_, ?_⟩
      · rw [gather, hnone, List.getLast?_concat]
        simp
      · rw [List.dropLast_concat]
        exact htaken
      · rw [List.dropLast_concat]
        exact hoffers

theorem Gathers.length_pending (h : typing.Gathers keys blocks reached) :
    reached.decoder.pending.length ≤ bufferCapacity := by
  rw [h.pending]
  rcases List.eq_nil_or_concat' blocks with rfl | ⟨before, block, rfl⟩
  · exact Nat.zero_le _
  · rw [List.getLast?_concat]
    exact h.packed.fits block (by simp)

theorem Gathers.send (h : typing.Gathers keys blocks reached) (key : Option Bytes)
    (hfits : (key.getD []).length ≤ bufferCapacity) :
    ∃ next blocks', reached.send key = ⟨next, none⟩ ∧
      typing.Gathers (keys ++ [key.getD []].filter (· ≠ [])) blocks' next := by
  cases key with
  | none => exact ⟨reached, blocks, rfl, by simpa using h⟩
  | some key =>
      by_cases hnil : key = []
      · have hroom : reached.decoder.pending.length + ([] : Bytes).length ≤ bufferCapacity :=
          h.length_pending
        refine ⟨reached.gather [], blocks, ?_, ?_⟩
        · rw [hnil, Typing.send, Typing.queue, if_pos hroom]
        · have hsame : typing.Gathers keys blocks (reached.gather []) :=
            h.congr (List.append_nil _) rfl
          simpa [hnil] using hsame
      · obtain ⟨next, blocks', hqueue, hgathers⟩ := h.queue hfits
        exact ⟨next, blocks', hqueue, by simpa [hnil] using hgathers⟩

-- One byte: the key that it completes, if it completes one, is put behind those that wait.
theorem Gathers.step (h : typing.Gathers keys blocks reached)
    (unfinished : reached.decoder.phase.Partial) (byte : UInt8) :
    ∃ next strokes blocks', reached.step byte = ⟨next, none⟩ ∧
      reached.Understands [byte] strokes next ∧
      typing.Gathers (keys ++ Keystroke.keys reached.modes.appCursor strokes) blocks' next := by
  obtain ⟨decoder, modes, pty⟩ := reached
  obtain ⟨reached, modes', key, strokes, hpending, hkey, hall⟩ :=
    exists_strokes_send unfinished modes byte
  obtain ⟨hstep, hunderstands⟩ := hall pty
  have hone : strokes.length ≤ 1 := by
    have hlength := length_keystrokes_le unfinished byte
    rwa [hunderstands.keystrokes_eq] at hlength
  have hkeys : [key.getD []].filter (· ≠ []) = Keystroke.keys modes.appCursor strokes := by
    rw [hkey]
    match strokes, hone with
    | [], _ => rfl
    | [stroke], _ => simp [Keystroke.keys]
  have hfits : (key.getD []).length ≤ bufferCapacity := by
    rw [hkey]
    match strokes, hone with
    | [], _ => exact Nat.zero_le _
    | [stroke], _ =>
        rw [List.flatMap_singleton]
        exact (Keystroke.length_meaning_le modes.appCursor stroke).trans (by decide)
  have hbegun : typing.Gathers keys blocks ⟨reached, modes', pty⟩ := h.congr hpending rfl
  obtain ⟨next, blocks', hsend, hgathers⟩ := hbegun.send key hfits
  rw [hkeys] at hgathers
  rw [hstep, hsend] at hunderstands
  exact ⟨next, strokes, blocks', hstep.trans hsend, hunderstands, hgathers⟩

theorem Gathers.steps (h : typing.Gathers keys blocks reached)
    (unfinished : reached.decoder.phase.Partial) (input : Bytes) :
    ∃ next strokes blocks', reached.steps input = ⟨next, none⟩ ∧
      reached.Understands input strokes next ∧
      typing.Gathers (keys ++ Keystroke.keys reached.modes.appCursor strokes) blocks' next := by
  induction input generalizing reached keys blocks with
  | nil =>
      refine ⟨reached, [], blocks, rfl, .refl unfinished, ?_⟩
      rw [Keystroke.keys, List.map_nil, List.filter_nil, List.append_nil]
      exact h
  | cons byte rest ih =>
      obtain ⟨next, strokes, blocks', hstep, hunderstands, hgathers⟩ := h.step unfinished byte
      obtain ⟨last, later, blocks'', hrest, hunderstands', hgathers'⟩ :=
        ih hgathers hunderstands.unfinished
      refine ⟨last, strokes ++ later, blocks'', ?_, hunderstands.trans hunderstands', ?_⟩
      · rw [steps_cons, hstep]
        exact hrest
      · rw [hunderstands.modes] at hgathers'
        rw [Keystroke.keys_append, ← List.append_assoc]
        exact hgathers'

-- The end of a batch: what still waits is written, if there is anything.
theorem Gathers.finish (h : typing.Gathers keys blocks reached) (hkeys : ∀ key ∈ keys, key ≠ []) :
    reached.flush.error = none ∧
      reached.flush.state.pty.taken.toList =
        typing.pty.taken.toList ++ blocks.map List.flatten ∧
      reached.flush.state.pty.offers = typing.pty.offers + blocks.length := by
  rcases List.eq_nil_or_concat' blocks with rfl | ⟨before, block, rfl⟩
  · have hpending : reached.decoder.pending = [] := h.pending
    rw [Typing.flush, hpending, Writer.deliver_nil]
    exact ⟨rfl, h.taken, h.offers⟩
  · have hne : block.flatten ≠ [] := by
      obtain ⟨first, rest, hblock⟩ :=
        List.exists_cons_of_ne_nil (h.packed.nonempty block (by simp))
      have hfirst : first ∈ keys := by
        rw [← h.packed.whole, hblock]
        simp
      rw [hblock, List.flatten_cons]
      exact List.append_ne_nil_of_left_ne_nil (hkeys first hfirst) _
    obtain ⟨next, hflush, -, -, htaken, hoffers⟩ := h.flush hne
    rw [hflush]
    exact ⟨rfl, htaken, hoffers⟩

end Typing

namespace KeyDecoder

variable {decoder : KeyDecoder} {pty : Writer}

-- The keys that a batch completes, whole and in their order
def keys (decoder : KeyDecoder) (modes : Modes) (input : Bytes) : List Bytes :=
  Keystroke.keys modes.appCursor (keystrokes (decoder.phase.leftover ++ input)).1

theorem Settled.exists_blocks (settled : decoder.Settled) (modes : Modes)
    (roomy : pty.Roomy Typing.bufferCapacity) (input : Bytes) :
    ∃ blocks, Packed Typing.bufferCapacity (decoder.keys modes input) blocks ∧
      (decoder.feed modes pty input).error = none ∧
      (decoder.feed modes pty input).state.pty.taken.toList =
        pty.taken.toList ++ blocks.map List.flatten ∧
      (decoder.feed modes pty input).state.pty.offers = pty.offers + blocks.length := by
  have hstart : (decoder.begun modes pty).Gathers [] [] (decoder.begun modes pty) :=
    ⟨.nil _, settled.pending, roomy, (List.append_nil _).symm, rfl⟩
  obtain ⟨reached, strokes, blocks, hsteps, hunderstands, hgathers⟩ :=
    hstart.steps settled.unfinished input
  have hread : keystrokes (decoder.phase.leftover ++ input) = (strokes, reached.decoder.phase) :=
    hunderstands.keystrokes_eq
  have hkeys : decoder.keys modes input = Keystroke.keys modes.appCursor strokes := by
    rw [keys, hread]
  rw [List.nil_append] at hgathers
  have hfinish := hgathers.finish fun key => Keystroke.ne_nil_of_mem_keys
  rw [hkeys, feed_eq, hsteps]
  exact ⟨blocks, hgathers.packed, hfinish⟩

-- A pty that takes all it is offered gets the keys of a batch in blocks, each in one offer. No key
-- is divided among two, and no block ends before the next key would make it too long. Without a key
-- there is no offer, and keys that fit into one block make one.
theorem feed_batches (settled : decoder.Settled) (modes : Modes)
    (roomy : pty.Roomy Typing.bufferCapacity) (input : Bytes) :
    ∃ blocks, Packed Typing.bufferCapacity (decoder.keys modes input) blocks ∧
      (∀ others, Packed Typing.bufferCapacity (decoder.keys modes input) others →
        others = blocks) ∧
      (decoder.feed modes pty input).error = none ∧
      (decoder.feed modes pty input).state.pty.taken.toList =
        pty.taken.toList ++ blocks.map List.flatten ∧
      (decoder.feed modes pty input).state.pty.offers = pty.offers + blocks.length ∧
      (decoder.keys modes input = [] → blocks = []) ∧
      (decoder.keys modes input ≠ [] →
        (decoder.keys modes input).flatten.length ≤ Typing.bufferCapacity →
          blocks = [decoder.keys modes input]) := by
  obtain ⟨blocks, hpacked, herror, htaken, hoffers⟩ :=
    settled.exists_blocks modes roomy input
  refine ⟨blocks, hpacked, fun others hothers => hothers.unique hpacked, herror, htaken, hoffers,
    ?_, fun hne hfits => hpacked.eq_singleton hne hfits⟩
  intro hnone
  rw [hnone] at hpacked
  exact hpacked.eq_nil

-- A cursor key for which 255 bytes leave no room, and a request that sends nothing
theorem feed_batches_divided :
    let input : Bytes := List.replicate 255 0x78 ++ [0x5c, 0x5e, 0x5c, 0x64, 0x61]
    (∃ blocks, Packed 256 (({} : KeyDecoder).keys {} input) blocks ∧
      (({} : KeyDecoder).feed {} {} input).state.pty.taken.toList = blocks.map List.flatten) ∧
    (({} : KeyDecoder).feed {} {} input).state.pty.taken.toList =
      [List.replicate 255 0x78, [0x1b, 0x5b, 0x41, 0x61]] := by
  intro input
  have roomy : ({} : Writer).Roomy Typing.bufferCapacity := ⟨rfl, by simp⟩
  have settled : ({} : KeyDecoder).Settled := ⟨rfl, .idle⟩
  obtain ⟨blocks, hpacked, -, -, htaken, -⟩ := feed_batches settled {} roomy input
  exact ⟨⟨blocks, hpacked, htaken⟩, by decide +kernel⟩

end KeyDecoder

end TerminalRelay
