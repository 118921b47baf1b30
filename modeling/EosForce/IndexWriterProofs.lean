import Mathlib.Data.List.Induction
import EosForce.PositionLogProofs
import EosForce.ChainTypesProofs

/-! # The writer of the block index

    The positions come in from the last block to the first, and the index is
    filled from its end through a buffer that slides down the file.  Places in
    the index are turned into places in the file by a shift of 32 bits: from
    `2 ^ 29` blocks on the writer starts at a wrong place and never
    completes. -/

namespace BlockFiles

open ChainTypes ByteFile PositionLog List

/-! ## The writer -/

/-- `buffer_location_to_file_location`: the argument and the shift have 32
    bits. -/
def bufferLocationToFileLocation (bufferLocation : Int) : Nat :=
  (bufferLocation % 2 ^ 32).toNat * 8 % 2 ^ 32

/-- `file_location_to_buffer_location`. -/
def fileLocationToBufferLocation (fileLocation : Nat) : Nat := fileLocation % 2 ^ 32 / 8

/-- `index_writer::_max_buffer_length`. -/
@[irreducible] def maxBufferLength : Nat := fileLocationToBufferLocation (2 ^ 22)

theorem maxBufferLength_eq : maxBufferLength = 2 ^ 19 := by
  rw [maxBufferLength]
  rfl

/-- `index_writer`. -/
structure IndexWriter where
  blocksExpected : Nat
  file : Option File := none
  buffer : Nat → Nat := fun _ => 0
  currentPosition : Int := 0
  startOfBufferPosition : Int := 0
  endOfBufferPosition : Int := 0

/-- `update_buffer_position`; the comparison is one of unsigned numbers. -/
def IndexWriter.updateBufferPosition (w : IndexWriter) : IndexWriter :=
  let endOfBufferPosition := w.currentPosition + 1
  { w with
    endOfBufferPosition
    startOfBufferPosition :=
      if endOfBufferPosition % 2 ^ 64 < maxBufferLength then 0
      else endOfBufferPosition - maxBufferLength }

/-- `shift_buffer`; `fwrite` of nothing returns that nothing was written. -/
def IndexWriter.shiftBuffer (w : IndexWriter) : Except FcException (Bool × IndexWriter) :=
  if w.startOfBufferPosition ≤ w.currentPosition then .ok (false, w)
  else do
    let fileLocationStart := bufferLocationToFileLocation w.startOfBufferPosition
    let bufferSize := w.endOfBufferPosition - w.startOfBufferPosition
    let fileSize := bufferLocationToFileLocation bufferSize
    eosAssert (fileSize ≠ 0) .blockLog
      "Writing Block Index file '$\x7bfile\x7d' failed at location: $\x7bloc\x7d"
    let written := indexBytes ((List.range (fileSize / 8)).map w.buffer)
    pure (true, { w with
      file := some (writeAt (w.file.getD []) fileLocationStart written) }.updateBufferPosition)

/-- The first part of `prepare_buffer`: the file is opened for the first
    position. -/
def IndexWriter.opened (w : IndexWriter) : IndexWriter :=
  if w.file = none then
    let fullFileSize := bufferLocationToFileLocation w.blocksExpected
    let blockEnd := fileLocationToBufferLocation fullFileSize
    { w with file := some [], currentPosition := (blockEnd - 1) % 2 ^ 32 }.updateBufferPosition
  else w

/-- `prepare_buffer`. -/
def IndexWriter.prepareBuffer (w : IndexWriter) : Except FcException IndexWriter := do
  let (_, w) ← w.opened.shiftBuffer
  pure w

/-- `index_writer::write`. -/
def IndexWriter.write (w : IndexWriter) (pos : Nat) : Except FcException IndexWriter := do
  let w ← w.prepareBuffer
  let i := w.currentPosition - w.startOfBufferPosition
  if 0 ≤ i ∧ i < maxBufferLength then
    pure { w with
      buffer := Function.update w.buffer i.toNat pos
      currentPosition := w.currentPosition - 1 }
  else .error ⟨.undefinedBehaviour, "write outside of the buffer"⟩

/-- `complete`. -/
def IndexWriter.complete (w : IndexWriter) : Except FcException IndexWriter := do
  let (shifted, w) ← w.shiftBuffer
  eosAssert shifted .blockLog "Failed to write buffer to '$\x7bblocks_index\x7d'"
  eosAssert (w.currentPosition = -1) .blockLog
    "Should have written buffer, starting at the 0 index block position, to '$\x7bblocks_index\x7d' but instead writing $\x7bpos\x7d position"
  pure w

/-- Positions written one after the other, and the writer completed. -/
def IndexWriter.writeAll (w : IndexWriter) (ps : List Nat) : Except FcException IndexWriter := do
  let w ← ps.foldlM IndexWriter.write w
  w.complete

/-! ## Fewer than `2 ^ 29` blocks -/

theorem fileLocation_of_lt {n : Nat} (h : n < 2 ^ 29) : bufferLocationToFileLocation n = 8 * n := by
  rw [bufferLocationToFileLocation]
  omega

/-- The file ends with `tail`, and there is nothing but zeros in the `n` bytes
    before it; a file with nothing in it yet is empty. -/
def Hole (f : File) (n : Nat) (tail : File) : Prop :=
  f = List.replicate n 0 ++ tail ∨ f = [] ∧ tail = []

theorem Hole.writeAt {f d tail : File} {n : Nat} (h : Hole f (n + d.length) tail) :
    Hole (writeAt f n d) n (d ++ tail) := by
  have hzeros : (List.replicate n (0 : UInt8)).length = n := length_replicate
  refine .inl ?_
  rcases h with rfl | ⟨rfl, rfl⟩
  · have hwrite := writeAt_append (List.replicate n 0) (List.replicate d.length 0 ++ tail) d
    rw [hzeros] at hwrite
    have hdrop : (List.replicate d.length (0 : UInt8) ++ tail).drop d.length = tail := by
      rw [drop_append, length_replicate, Nat.sub_self, drop_zero,
        drop_of_length_le (Nat.le_of_eq length_replicate), nil_append]
    rw [← replicate_append_replicate, append_assoc, hwrite, hdrop]
  · rw [ByteFile.writeAt, take_nil, nil_append, length_nil, Nat.sub_zero, drop_nil]

/-- Of the positions that are to come in, `left` are missing; the `held` are in
    the buffer, and the `flushed` are in the file. -/
structure IndexWriter.Filled (w : IndexWriter) (left : Nat) (held flushed : List Nat) : Prop where
  file : ∃ f, w.file = some f ∧ Hole f (8 * (left + held.length)) (indexBytes flushed)
  current : w.currentPosition = (left : Int) - 1
  stop : w.endOfBufferPosition = (left + held.length : Nat)
  start : w.startOfBufferPosition = (left + held.length - maxBufferLength : Nat)
  room : held.length ≤ maxBufferLength
  buffer : ∀ {i p}, held[i]? = some p →
    w.buffer (left - (left + held.length - maxBufferLength) + i) = p

variable {w : IndexWriter}

theorem updateBufferPosition_filled {left : Nat} {flushed : List Nat} {f : File}
    (hleft : left < 2 ^ 29) (hf : w.file = some f) (hhole : Hole f (8 * left) (indexBytes flushed))
    (hcurrent : w.currentPosition = (left : Int) - 1) :
    w.updateBufferPosition.Filled left [] flushed := by
  have hmax := maxBufferLength_eq
  refine ⟨⟨f, hf, hhole⟩, hcurrent, ?_, ?_, Nat.zero_le _, nofun⟩
  · show w.currentPosition + 1 = _
    rw [hcurrent]
    simp
  · show (if (w.currentPosition + 1) % 2 ^ 64 < (maxBufferLength : Int) then (0 : Int)
      else w.currentPosition + 1 - maxBufferLength) = _
    rw [hcurrent, hmax, length_nil]
    split
    · omega
    · omega

/-- The buffer is full, or the first position is in it: it is written. -/
theorem IndexWriter.Filled.flush {left : Nat} {held flushed : List Nat}
    (h : w.Filled left held flushed) (hleft : left + held.length < 2 ^ 29) (hne : held ≠ [])
    (hfull : left + held.length - maxBufferLength = left) :
    ∃ w', w.shiftBuffer = .ok (true, w') ∧ w'.Filled left [] (held ++ flushed) := by
  obtain ⟨f, hf, hhole⟩ := h.file
  have hlength := length_pos_iff.mpr hne
  have hcurrent := h.current
  have hstart := h.start
  rw [hfull] at hstart
  have hlocation : bufferLocationToFileLocation w.startOfBufferPosition = 8 * left := by
    rw [hstart, fileLocation_of_lt (by omega)]
  have hsize : bufferLocationToFileLocation (w.endOfBufferPosition - w.startOfBufferPosition) =
      8 * held.length := by
    have hdiff : w.endOfBufferPosition - w.startOfBufferPosition = (held.length : Nat) := by
      rw [h.stop, hstart]
      omega
    rw [hdiff, fileLocation_of_lt (by omega)]
  have hbytes : (List.range (8 * held.length / 8)).map w.buffer = held := by
    rw [Nat.mul_div_cancel_left _ (by decide)]
    refine ext_getElem (by rw [length_map, length_range]) ?_
    intro i hi hi'
    rw [getElem_map, getElem_range]
    have hget := h.buffer (List.getElem?_eq_getElem hi')
    rw [hfull, Nat.sub_self, Nat.zero_add] at hget
    exact hget
  refine ⟨{ w with file := some (ByteFile.writeAt f (8 * left) (indexBytes held))
      }.updateBufferPosition, ?_, ?_⟩
  · rw [shiftBuffer, if_neg (by omega)]
    dsimp only
    rw [hlocation, hsize, hbytes, hf]
    exact eosAssert_bind_ok_iff.mpr ⟨by omega, rfl⟩
  · refine updateBufferPosition_filled (by omega) rfl ?_ hcurrent
    rw [indexBytes_append]
    refine Hole.writeAt ?_
    rw [length_indexBytes, ← Nat.mul_add]
    exact hhole

/-- One position. -/
theorem IndexWriter.Filled.write {left : Nat} {held flushed : List Nat}
    (h : w.Filled (left + 1) held flushed) (hleft : left + 1 + held.length < 2 ^ 29) (p : Nat) :
    ∃ w' held' flushed', w.write p = .ok w' ∧ w'.Filled left (p :: held') flushed' ∧
      held' ++ flushed' = held ++ flushed ∧ held'.length ≤ held.length := by
  have hmax := maxBufferLength_eq
  -- a full buffer is written first
  obtain ⟨w1, held1, flushed1, hprepare, h1, hroom, hsame, hfew⟩ : ∃ w1 held1 flushed1,
      w.prepareBuffer = .ok w1 ∧ w1.Filled (left + 1) held1 flushed1 ∧
        left + 1 + held1.length - maxBufferLength ≤ left ∧
        held1 ++ flushed1 = held ++ flushed ∧ held1.length ≤ held.length := by
    obtain ⟨f, hf, -⟩ := h.file
    have hopened : w.opened = w := by rw [opened, hf, if_neg nofun]
    have hstart := h.start
    have hcurrent := h.current
    by_cases hshift : left + 1 + held.length - maxBufferLength ≤ left
    · refine ⟨w, held, flushed, ?_, h, hshift, rfl, Nat.le_refl _⟩
      rw [prepareBuffer, hopened, shiftBuffer, if_pos (by omega)]
      rfl
    · have hroom := h.room
      have hne : held ≠ [] := by
        rintro rfl
        rw [length_nil] at hshift
        omega
      obtain ⟨w1, hw1, h1⟩ := h.flush hleft hne (by omega)
      refine ⟨w1, [], held ++ flushed, ?_, h1, by rw [length_nil]; omega, rfl, Nat.zero_le _⟩
      rw [prepareBuffer, hopened, hw1]
      rfl
  have hstart := h1.start
  have hcurrent := h1.current
  have hroom1 := h1.room
  -- where the position goes in the buffer
  obtain ⟨place, hplace⟩ : ∃ place, left - (left + 1 + held1.length - maxBufferLength) = place :=
    ⟨_, rfl⟩
  have hi : w1.currentPosition - w1.startOfBufferPosition = place := by omega
  refine ⟨{ w1 with
      buffer := Function.update w1.buffer place p
      currentPosition := w1.currentPosition - 1 }, held1, flushed1, ?_, ?_, hsame, hfew⟩
  · rw [IndexWriter.write, hprepare]
    show (if _ then _ else _) = _
    rw [hi, if_pos (by omega)]
    rfl
  · have hlength : left + (p :: held1).length = left + 1 + held1.length := by
      rw [length_cons]
      omega
    constructor
    case file =>
      rw [hlength]
      exact h1.file
    case current =>
      show w1.currentPosition - 1 = _
      omega
    case stop =>
      rw [hlength]
      exact h1.stop
    case start =>
      rw [hlength]
      exact hstart
    case room =>
      rw [length_cons]
      omega
    case buffer =>
      intro i q hq
      rw [hlength, hplace]
      cases i with
      | zero =>
        rw [List.getElem?_cons_zero] at hq
        exact (Function.update_self place p w1.buffer).trans (Option.some.inj hq)
      | succ i =>
        have hother : left + 1 - (left + 1 + held1.length - maxBufferLength) + i =
            place + (i + 1) := by omega
        have hget := h1.buffer (show held1[i]? = some q from hq)
        rw [hother] at hget
        have hne : place + (i + 1) ≠ place := by omega
        exact (Function.update_of_ne hne p w1.buffer).trans hget

/-- All the positions that are missing, from the last on. -/
theorem IndexWriter.Filled.writes (ps : List Nat) : ∀ {w : IndexWriter} {held flushed : List Nat},
    w.Filled ps.length held flushed → ps.length + held.length < 2 ^ 29 →
    (ps = [] → held ≠ []) → ∃ w' held' flushed', ps.reverse.foldlM IndexWriter.write w = .ok w' ∧
      w'.Filled 0 held' flushed' ∧ held' ≠ [] ∧ held' ++ flushed' = ps ++ (held ++ flushed) := by
  induction ps using List.reverseRecOn with
  | nil =>
    intro w held flushed h _ hne
    exact ⟨w, held, flushed, rfl, h, hne rfl, rfl⟩
  | append_singleton ps p ih =>
    intro w held flushed h hfew _
    rw [length_append, length_singleton] at h hfew
    obtain ⟨w1, held1, flushed1, hw1, h1, hsame, hle⟩ := h.write hfew p
    obtain ⟨w', held', flushed', hw', h', hne', hsame'⟩ :=
      ih h1 (by rw [length_cons]; omega) nofun
    refine ⟨w', held', flushed', ?_, h', hne', ?_⟩
    · rw [reverse_append, reverse_singleton, singleton_append, foldlM_cons,
        hw1]
      exact hw'
    · rw [hsame', cons_append, hsame, append_assoc, singleton_append]

theorem opened_of_file {f : File} (h : w.file = some f) : w.opened = w := by
  rw [IndexWriter.opened, h, if_neg nofun]

/-- The writer opens its file before it does anything else. -/
theorem write_opened (w : IndexWriter) (p : Nat) : w.opened.write p = w.write p := by
  have htwice : w.opened.opened = w.opened := by
    cases hfile : w.file with
    | none =>
      have hopened : w.opened.file = some [] := by
        rw [IndexWriter.opened, if_pos hfile]
        rfl
      exact opened_of_file hopened
    | some f => rw [opened_of_file hfile, opened_of_file hfile]
  rw [IndexWriter.write, IndexWriter.prepareBuffer, htwice]
  rfl

theorem opened_filled {n : Nat} (h : n < 2 ^ 29) (hpos : 0 < n) :
    ({ blocksExpected := n } : IndexWriter).opened.Filled n [] [] := by
  rw [IndexWriter.opened, if_pos rfl]
  dsimp only
  rw [fileLocation_of_lt h]
  refine updateBufferPosition_filled h rfl (.inr ⟨rfl, rfl⟩) ?_
  show (((fileLocationToBufferLocation (8 * n) : Nat) : Int) - 1) % 2 ^ 32 = _
  rw [fileLocationToBufferLocation]
  omega

/-- Fewer than `2 ^ 29` positions, written from the last to the first, are the
    index. -/
theorem writeAll_ok {ps : List Nat} (hne : ps ≠ []) (hfew : ps.length < 2 ^ 29) :
    ∃ w, IndexWriter.writeAll { blocksExpected := ps.length } ps.reverse = .ok w ∧
      w.file = some (indexBytes ps) := by
  have hlength := length_pos_iff.mpr hne
  obtain ⟨w, held, flushed, hw, h, hheld, hsame⟩ :=
    IndexWriter.Filled.writes ps (opened_filled hfew hlength) hfew (fun h => absurd h hne)
  rw [append_nil, append_nil] at hsame
  have hroom := h.room
  have htotal := congrArg List.length hsame
  rw [length_append] at htotal
  obtain ⟨w', hw', h'⟩ := h.flush (by omega) hheld (by omega)
  -- the first position opens the file
  have hrun : ps.reverse.foldlM IndexWriter.write { blocksExpected := ps.length } = .ok w := by
    cases hreverse : ps.reverse with
    | nil => exact absurd (reverse_eq_nil_iff.mp hreverse) hne
    | cons p rest =>
      rw [hreverse, foldlM_cons, write_opened] at hw
      rw [foldlM_cons]
      exact hw
  refine ⟨w', ?_, ?_⟩
  · rw [IndexWriter.writeAll, hrun]
    show (w.shiftBuffer >>= _) = _
    rw [hw']
    exact eosAssert_bind_ok_iff.mpr ⟨h'.current, rfl⟩
  · obtain ⟨f, hf, hhole⟩ := h'.file
    rw [hf, ← hsame]
    rcases hhole with hzeros | ⟨hempty, hnil⟩
    · exact congrArg some hzeros
    · rw [hempty, hnil]

/-! ## A writer that completes -/

theorem shiftBuffer_current {w w' : IndexWriter} {shifted : Bool}
    (h : w.shiftBuffer = .ok (shifted, w')) :
    w'.currentPosition = w.currentPosition ∧ (w.file ≠ none → w'.file ≠ none) := by
  rw [IndexWriter.shiftBuffer] at h
  split at h
  · cases h
    exact ⟨rfl, id⟩
  · obtain ⟨-, h⟩ := eosAssert_bind_ok_iff.mp h
    cases h
    exact ⟨rfl, fun _ => nofun⟩

theorem opened_file (w : IndexWriter) : w.opened.file ≠ none := by
  cases hfile : w.file with
  | none =>
    rw [IndexWriter.opened, if_pos hfile]
    exact nofun
  | some f =>
    rw [opened_of_file hfile, hfile]
    exact nofun

/-- A position takes the writer one place down. -/
theorem write_current {w w' : IndexWriter} {p : Nat} (h : w.write p = .ok w') :
    w'.currentPosition = w.opened.currentPosition - 1 ∧ w'.file ≠ none := by
  obtain ⟨w1, hprepare, h⟩ := except_bind_ok h
  obtain ⟨⟨shifted, w2⟩, hshift, hpure⟩ := except_bind_ok hprepare
  cases hpure
  obtain ⟨hcurrent, hfile⟩ := shiftBuffer_current hshift
  dsimp only at h
  split at h
  · cases h
    exact ⟨congrArg (· - 1) hcurrent, hfile (opened_file w)⟩
  · cases h

theorem writes_current {ps : List Nat} : ∀ {w w' : IndexWriter},
    ps.foldlM IndexWriter.write w = .ok w' →
    w'.opened.currentPosition = w.opened.currentPosition - ps.length ∧
      (ps ≠ [] → w'.file ≠ none) := by
  induction ps with
  | nil =>
    intro w w' h
    cases h
    exact ⟨(Int.sub_zero _).symm, fun hne => absurd rfl hne⟩
  | cons p ps ih =>
    intro w w' h
    obtain ⟨w1, hwrite, h⟩ := except_bind_ok h
    obtain ⟨hcurrent, hfile⟩ := write_current hwrite
    obtain ⟨hrest, hlast⟩ := ih h
    obtain ⟨f, hf⟩ := Option.ne_none_iff_exists'.mp hfile
    rw [opened_of_file hf] at hrest
    refine ⟨?_, fun _ => ?_⟩
    · rw [hrest, hcurrent, length_cons]
      omega
    · cases ps with
      | nil =>
        cases h
        exact hfile
      | cons q ps => exact hlast nofun

/-- A writer that has as many positions as it expects completes only if they
    are fewer than `2 ^ 29`. -/
theorem few_of_writeAll {ps : List Nat} (hlt : ps.length < 2 ^ 32) (hne : ps ≠ [])
    (h : IndexWriter.writeAll { blocksExpected := ps.length } ps = .ok w) : ps.length < 2 ^ 29 := by
  obtain ⟨w1, hwrites, hcomplete⟩ := except_bind_ok h
  obtain ⟨⟨shifted, w2⟩, hshift, hcomplete⟩ := except_bind_ok hcomplete
  obtain ⟨-, hcomplete⟩ := eosAssert_bind_ok_iff.mp hcomplete
  obtain ⟨hend, -⟩ := eosAssert_bind_ok_iff.mp hcomplete
  obtain ⟨hcurrent, hfile⟩ := writes_current hwrites
  obtain ⟨f, hf⟩ := Option.ne_none_iff_exists'.mp (hfile hne)
  rw [opened_of_file hf, ← (shiftBuffer_current hshift).1, hend] at hcurrent
  -- where the writer started, against where it should have
  rw [IndexWriter.opened, if_pos rfl] at hcurrent
  replace hcurrent : -1 = ((fileLocationToBufferLocation
      (bufferLocationToFileLocation ps.length) : Nat) - 1 : Int) % 2 ^ 32 - ps.length := hcurrent
  rw [fileLocationToBufferLocation, bufferLocationToFileLocation] at hcurrent
  omega

end BlockFiles
