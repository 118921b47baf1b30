import EosForce.BlockFileProofs

/-! # Making the block index again

    `reverse_iterator` reads the positions behind the blocks from the last to
    the first, through a buffer that holds a stretch of the file that ends
    with a position; `construct_index` hands them to the index writer. -/

namespace BlockFiles

open ChainTypes ByteFile PositionLog List

/-! ## Buffers -/

/-- `reverse_iterator::_buf_len`. -/
@[irreducible] def bufLen : Nat := 2 ^ 24

theorem bufLen_eq : bufLen = 2 ^ 24 := by
  rw [bufLen]

/-- `fread` of one item of a size at a position; an item of no size is none. -/
def freadOne (f : File) (pos size : Nat) : Option File :=
  if size = 0 then none else readAt f pos size

/-- A buffer with bytes put at its start; the rest stays as it was. -/
def refill (buffer d : File) : File := d ++ buffer.drop d.length

/-- Memory that is read outside of the buffer. -/
def inBuffer {α : Type} (x : Option α) : Except FcException α :=
  orThrow x .undefinedBehaviour "read outside of the buffer"

/-- The buffer starts with the bytes of the file between two positions. -/
structure Window (f buffer : File) (start stop : Nat) : Prop where
  bytes : ∃ a d b rest, f = a ++ (d ++ b) ∧ buffer = d ++ rest ∧ a.length = start ∧
    a.length + d.length = stop

theorem Window.readAt {f buffer : File} {start stop pos n : Nat} (h : Window f buffer start stop)
    (hstart : start ≤ pos) (hstop : pos + n ≤ stop) :
    readAt buffer (pos - start) n = ByteFile.readAt f pos n := by
  obtain ⟨a, d, b, rest, rfl, rfl, rfl, rfl⟩ := h.bytes
  obtain ⟨i, rfl⟩ := Nat.exists_eq_add_of_le hstart
  rw [Nat.add_sub_cancel_left, ByteFile.readAt, ByteFile.readAt,
    if_pos (by rw [length_append]; omega),
    if_pos (by rw [length_append, length_append]; omega),
    drop_append_of_le_length (by omega), ← drop_drop, drop_left,
    drop_append_of_le_length (by omega),
    take_append_of_le_length (by rw [length_drop]; omega),
    take_append_of_le_length (by rw [length_drop]; omega)]

theorem window_refill {f buffer d : File} {start size : Nat} (h : freadOne f start size = some d) :
    Window f (refill buffer d) start (start + size) := by
  rw [freadOne] at h
  split at h
  · cases h
  · rw [ByteFile.readAt] at h
    split at h
    · next hle =>
      cases h
      refine ⟨⟨f.take start, (f.drop start).take size, (f.drop start).drop size, _, ?_, rfl,
        ?_, ?_⟩⟩
      · rw [take_append_drop, take_append_drop]
      · rw [length_take]
        omega
      · rw [length_take, length_take, length_drop]
        omega
    · cases h

/-! ## The iterator -/

/-- `reverse_iterator`. -/
structure ReverseIterator where
  file : File
  version : Nat := 0
  firstBlockNum : Nat := 0
  lastBlockNum : Nat := 0
  blocksFound : Nat := 0
  blocksExpected : Nat := 0
  currentPositionInFile : Nat := 0
  endOfBufferPosition : Nat := npos
  startOfBufferPosition : Nat := 0
  buffer : File := List.replicate bufLen 0

/-- `update_buffer`. -/
def ReverseIterator.updateBuffer (it : ReverseIterator) : Except FcException ReverseIterator := do
  eosAssert (it.currentPositionInFile ≠ npos) .blockLog "Block log file not setup properly"
  let endOfBufferPosition := (it.currentPositionInFile + 8) % 2 ^ 64
  let startOfBufferPosition :=
    if endOfBufferPosition < bufLen then 0 else endOfBufferPosition - bufLen
  let d ← orThrow
    (freadOne it.file startOfBufferPosition (endOfBufferPosition - startOfBufferPosition))
    .blockLog "blocks.log read fails"
  pure { it with endOfBufferPosition, startOfBufferPosition, buffer := refill it.buffer d }

/-- The first part of `open`: the header is read, and the buffer filled from
    the end of the file. -/
def ReverseIterator.atEnd (file : File) : Except FcException ReverseIterator := do
  let version ← orThrow (readLE 4 file 0) .blockLog
    "Block log file at '$\x7bblocks_log\x7d' could not be read."
  eosAssert (isSupportedVersion version) .blockLogUnsupportedVersion
    "block log version $\x7bv\x7d is not supported"
  let firstBlockNum ← (if version = 1 then .ok 1 else
    orThrow (readLE 4 file 4) .blockLog
      "Block log file at '$\x7bblocks_log\x7d' not formatted consistently with version $\x7bv\x7d.")
  eosAssert (0 < file.length) .blockLog "Block log file at '$\x7bblocks_log\x7d' could not be read."
  ReverseIterator.updateBuffer {
    file, version, firstBlockNum, currentPositionInFile := (file.length + 2 ^ 64 - 8) % 2 ^ 64 }

/-- The number in the previous id of the block at a position, from the buffer
    if the block starts there. -/
def ReverseIterator.priorNum (it : ReverseIterator) (blockPos : Nat) : Except FcException Nat :=
  if it.startOfBufferPosition ≤ blockPos then
    inBuffer (readNum it.buffer ((blockPos - it.startOfBufferPosition) % 2 ^ 32 + blknumOffset))
  else orThrow (readNum it.file (blockPos + blknumOffset)) .blockLog
    "Could not read in '$\x7bblocks_log\x7d' at position: $\x7bpos\x7d"

/-- `open`: the number of blocks that the log should have, and the
    iterator. -/
def ReverseIterator.openFile (file : File) : Except FcException (Nat × ReverseIterator) := do
  let it ← ReverseIterator.atEnd file
  let indexOfPos := (it.currentPositionInFile - it.startOfBufferPosition) % 2 ^ 32
  let blockPos ← inBuffer (readLE 8 it.buffer indexOfPos)
  if blockPos = npos then pure (0, it)
  else
    let bnum ← it.priorNum blockPos
    let lastBlockNum := (bnum + 1) % 2 ^ 32
    let blocksExpected := (lastBlockNum + 2 ^ 32 - it.firstBlockNum + 1) % 2 ^ 32
    pure (blocksExpected, { it with lastBlockNum, blocksExpected })

/-- `previous`. -/
def ReverseIterator.previous (it : ReverseIterator) :
    Except FcException (Nat × ReverseIterator) := do
  eosAssert (it.currentPositionInFile ≠ npos) .blockLog
    "Block log file at '$\x7bblocks_log\x7d' first block already returned by former call to previous(), it is no longer valid to call this function."
  if it.version = 1 ∧ it.blocksFound = it.blocksExpected then
    pure (npos, { it with currentPositionInFile := npos })
  else
    let it ← (if it.currentPositionInFile < it.startOfBufferPosition then it.updateBuffer
      else .ok it)
    let blockLocationInFile ←
      inBuffer (readLE 8 it.buffer (it.currentPositionInFile - it.startOfBufferPosition))
    let blocksFound := (it.blocksFound + 1) % 2 ^ 32
    if blockLocationInFile = npos then
      eosAssert (blocksFound ≠ it.blocksExpected) .blockLog
        "Block log file at '$\x7bblocks_log\x7d' formatting indicated last block: $\x7blast_block_num\x7d, first block: $\x7bfirst_block_num\x7d, but found $\x7bnum\x7d blocks"
      pure (npos, { it with blocksFound, currentPositionInFile := npos })
    else
      let currentPositionInFile := (blockLocationInFile + 2 ^ 64 - 8) % 2 ^ 64
      eosAssert (currentPositionInFile < it.currentPositionInFile) .blockLog
        "Block log file at '$\x7bblocks_log\x7d' formatting is incorrect, indicates position later location in file: $\x7bpos\x7d, which was retrieved at: $\x7borig_pos\x7d."
      pure (blockLocationInFile, { it with blocksFound, currentPositionInFile })

/-! ## The index -/

/-- The loop of `construct_index`; the positions go down in the file. -/
def constructLoop : Nat → ReverseIterator → IndexWriter → Except FcException IndexWriter
  | 0, _, w => w.complete
  | fuel + 1, it, w => do
      let (position, it) ← it.previous
      if position = npos then w.complete
      else
        let w ← w.write position
        constructLoop fuel it w

/-- `construct_index` of a log file: the index file, unless there are no
    blocks. -/
def constructIndex (blockFile : File) : Except FcException (Option File) := do
  let (numBlocks, it) ← ReverseIterator.openFile blockFile
  if numBlocks = 0 then pure none
  else
    let w ← constructLoop (blockFile.length + 1) it { blocksExpected := numBlocks }
    pure w.file

/-- `construct_index`: the index is removed and made again. -/
def Log.constructIndex {β : Type} (s : Log β) : Except FcException (Log β) := do
  let indexFile ← BlockFiles.constructIndex s.blockFile
  pure { s with indexFile := indexFile.getD [] }

/-! ## Reading back -/

/-- The records `rs` behind the header are still to be returned; the buffer has
    the position behind the last of them, or is before it. -/
structure ReverseIterator.Before (it : ReverseIterator) (hd rest : File) (rs : List File) :
    Prop where
  file : it.file = hd ++ (logBytes hd.length rs ++ rest)
  size : it.file.length < 2 ^ 63
  version : it.version ≠ 1
  current : it.currentPositionInFile + 8 = hd.length + (logBytes hd.length rs).length
  window : Window it.file it.buffer it.startOfBufferPosition it.endOfBufferPosition
  inside : it.currentPositionInFile + 8 ≤ it.endOfBufferPosition
  found : it.blocksFound + rs.length = it.blocksExpected
  expected : it.blocksExpected < 2 ^ 32

section Iterator

variable {it : ReverseIterator} {hd rest : File} {rs : List File}

/-- The buffer is filled up to the end of the position. -/
theorem updateBuffer_ok (hsize : it.file.length < 2 ^ 63)
    (hcurrent : it.currentPositionInFile + 8 ≤ it.file.length) :
    ∃ start buffer, it.updateBuffer = .ok { it with
        endOfBufferPosition := it.currentPositionInFile + 8
        startOfBufferPosition := start
        buffer } ∧
      Window it.file buffer start (it.currentPositionInFile + 8) ∧
      start ≤ it.currentPositionInFile ∧ it.currentPositionInFile < start + bufLen := by
  have hlen := bufLen_eq
  have hend : (it.currentPositionInFile + 8) % 2 ^ 64 = it.currentPositionInFile + 8 :=
    Nat.mod_eq_of_lt (by omega)
  obtain ⟨start, hstart⟩ : ∃ start, (if it.currentPositionInFile + 8 < bufLen then 0
      else it.currentPositionInFile + 8 - bufLen) = start := ⟨_, rfl⟩
  have hle : start ≤ it.currentPositionInFile ∧ it.currentPositionInFile < start + bufLen := by
    split at hstart
    · omega
    · omega
  have hread : freadOne it.file start (it.currentPositionInFile + 8 - start) =
      some ((it.file.drop start).take (it.currentPositionInFile + 8 - start)) := by
    rw [freadOne, if_neg (by omega), ByteFile.readAt, if_pos (by omega)]
  have hwindow := @window_refill _ it.buffer _ _ _ hread
  rw [Nat.add_sub_cancel' (by omega)] at hwindow
  refine ⟨start, _, ?_, hwindow, hle⟩
  rw [ReverseIterator.updateBuffer]
  refine eosAssert_bind_ok_iff.mpr ⟨by rw [npos]; omega, ?_⟩
  dsimp only
  rw [hend, hstart, hread]
  rfl

theorem ReverseIterator.Before.current_le (h : it.Before hd rest rs) :
    it.currentPositionInFile + 8 ≤ it.file.length := by
  rw [h.current, h.file, length_append, length_append]
  omega

theorem ReverseIterator.Before.ne_npos (h : it.Before hd rest rs) :
    it.currentPositionInFile ≠ npos := by
  have hle := h.current_le
  have hsize := h.size
  rw [npos]
  omega

/-- What `previous` reads: the number behind the records that are left. -/
theorem ReverseIterator.Before.location (h : it.Before hd rest rs) {location : Nat}
    (hread : readLE 8 it.file it.currentPositionInFile = some location) :
    ∃ start stop buffer,
      (if it.currentPositionInFile < it.startOfBufferPosition then it.updateBuffer
        else .ok it) = .ok { it with
          startOfBufferPosition := start, endOfBufferPosition := stop, buffer } ∧
      Window it.file buffer start stop ∧ it.currentPositionInFile + 8 ≤ stop ∧
      readLE 8 buffer (it.currentPositionInFile - start) = some location := by
  have hfield : ∀ {buffer : File} {start stop : Nat}, Window it.file buffer start stop →
      start ≤ it.currentPositionInFile → it.currentPositionInFile + 8 ≤ stop →
      readLE 8 buffer (it.currentPositionInFile - start) = some location := by
    intro buffer start stop hwindow hstart hstop
    rw [readLE, hwindow.readAt hstart hstop]
    exact hread
  by_cases hshift : it.currentPositionInFile < it.startOfBufferPosition
  · obtain ⟨start, buffer, hupdate, hwindow, hstart, -⟩ := updateBuffer_ok h.size h.current_le
    exact ⟨start, _, buffer, (if_pos hshift).trans hupdate, hwindow, Nat.le_refl _,
      hfield hwindow hstart (Nat.le_refl _)⟩
  · exact ⟨it.startOfBufferPosition, it.endOfBufferPosition, it.buffer, if_neg hshift, h.window,
      h.inside, hfield h.window (Nat.le_of_not_lt hshift) h.inside⟩

/-- The last record that is left. -/
theorem ReverseIterator.Before.previous {r : File} (h : it.Before hd rest (rs ++ [r]))
    (hhd : 8 ≤ hd.length) :
    ∃ it', it.previous = .ok (hd.length + (logBytes hd.length rs).length, it') ∧
      it'.Before hd (r ++ (leBytes 8 (hd.length + (logBytes hd.length rs).length) ++ rest)) rs := by
  obtain ⟨pos, hpos⟩ : ∃ pos, hd.length + (logBytes hd.length rs).length = pos := ⟨_, rfl⟩
  have hfile := h.file
  rw [logBytes_append, logBytes_singleton, hpos] at hfile
  have hsize := h.size
  have hcurrent := h.current
  rw [logBytes_append, logBytes_singleton, length_append, length_append, length_leBytes] at hcurrent
  have hlt : pos < 2 ^ 63 := by
    rw [hfile] at hsize
    simp only [length_append] at hsize
    omega
  have hread : readLE 8 it.file it.currentPositionInFile = some pos := by
    refine @readLE_of_eq _ (hd ++ (logBytes hd.length rs ++ r)) rest _ _ _ ?_ ?_ (by omega)
    · rw [hfile]
      simp only [append_assoc]
    · rw [length_append, length_append]
      omega
  obtain ⟨start, stop, buffer, hbuffer, hwindow, hinside, hlocation⟩ := h.location hread
  have hfound := h.found
  rw [length_append, length_singleton] at hfound
  have hexpected := h.expected
  rw [hpos]
  refine ⟨{ it with
      startOfBufferPosition := start, endOfBufferPosition := stop, buffer
      blocksFound := it.blocksFound + 1, currentPositionInFile := pos - 8 }, ?_, ?_⟩
  · rw [ReverseIterator.previous]
    refine eosAssert_bind_ok_iff.mpr ⟨h.ne_npos, ?_⟩
    rw [if_neg (fun hv => h.version hv.1), hbuffer]
    show (inBuffer (readLE 8 buffer (it.currentPositionInFile - start)) >>= _) = _
    have hne : pos ≠ npos := by
      rw [npos]
      omega
    rw [hlocation]
    refine (if_neg hne).trans ?_
    refine eosAssert_bind_ok_iff.mpr ⟨?_, ?_⟩
    · show (pos + 2 ^ 64 - 8) % 2 ^ 64 < it.currentPositionInFile
      omega
    · have hcut : (pos + 2 ^ 64 - 8) % 2 ^ 64 = pos - 8 := by omega
      dsimp only
      rw [hcut, Nat.mod_eq_of_lt (by omega)]
      rfl
  · refine ⟨?_, hsize, h.version, ?_, hwindow, ?_, ?_, hexpected⟩
    · show it.file = _
      rw [hfile]
      simp only [append_assoc]
    · show pos - 8 + 8 = _
      omega
    · show pos - 8 + 8 ≤ stop
      omega
    · show it.blocksFound + 1 + rs.length = it.blocksExpected
      omega

/-- The mark in front of the first record. -/
theorem ReverseIterator.Before.previous_end {a : File}
    (h : it.Before (a ++ leBytes 8 npos) rest []) : ∃ it', it.previous = .ok (npos, it') := by
  have hcurrent := h.current
  rw [length_append, length_leBytes] at hcurrent
  have hread : readLE 8 it.file it.currentPositionInFile = some npos := by
    refine @readLE_of_eq _ a rest _ _ _ ?_ ?_ (by decide)
    · rw [h.file, logBytes, nil_append, append_assoc]
    · rw [logBytes, length_nil] at hcurrent
      omega
  obtain ⟨start, stop, buffer, hbuffer, -, -, hlocation⟩ := h.location hread
  have hfound := h.found
  have hexpected := h.expected
  refine ⟨{ it with
      startOfBufferPosition := start, endOfBufferPosition := stop, buffer
      blocksFound := (it.blocksFound + 1) % 2 ^ 32, currentPositionInFile := npos }, ?_⟩
  rw [ReverseIterator.previous]
  refine eosAssert_bind_ok_iff.mpr ⟨h.ne_npos, ?_⟩
  rw [if_neg (fun hv => h.version hv.1), hbuffer]
  show (inBuffer (readLE 8 buffer (it.currentPositionInFile - start)) >>= _) = _
  rw [hlocation]
  refine eosAssert_bind_ok_iff.mpr ⟨?_, rfl⟩
  show (it.blocksFound + 1) % 2 ^ 32 ≠ it.blocksExpected
  rw [length_nil] at hfound
  omega

end Iterator

/-- The writer gets the positions from the last to the first. -/
theorem constructLoop_eq {a : File} (rs : List File) : ∀ {it : ReverseIterator} {rest : File}
    {w : IndexWriter} {fuel : Nat}, it.Before (a ++ leBytes 8 npos) rest rs → rs.length < fuel →
    constructLoop fuel it w = w.writeAll (positions (a ++ leBytes 8 npos).length rs).reverse := by
  induction rs using List.reverseRecOn with
  | nil =>
    intro it rest w fuel h hfuel
    obtain ⟨k, rfl⟩ := Nat.exists_eq_add_of_lt hfuel
    obtain ⟨it', hit'⟩ := h.previous_end
    rw [constructLoop, hit']
    rfl
  | append_singleton rs r ih =>
    intro it rest w fuel h hfuel
    rw [length_append, length_singleton] at hfuel
    obtain ⟨k, rfl⟩ := Nat.exists_eq_add_of_lt hfuel
    obtain ⟨it', hit', h'⟩ := h.previous (by rw [length_append, length_leBytes]; omega)
    have hne : (a ++ leBytes 8 npos).length + (logBytes (a ++ leBytes 8 npos).length rs).length ≠
        npos := by
      have hsize := h'.size
      have hle := h'.current_le
      rw [← h'.current, npos]
      omega
    have hreverse : (positions (a ++ leBytes 8 npos).length (rs ++ [r])).reverse =
        ((a ++ leBytes 8 npos).length + (logBytes (a ++ leBytes 8 npos).length rs).length) ::
          (positions (a ++ leBytes 8 npos).length rs).reverse := by
      rw [positions_append, reverse_append]
      rfl
    rw [constructLoop, hit', hreverse, IndexWriter.writeAll, foldlM_cons]
    refine (if_neg hne).trans ?_
    rw [bind_assoc]
    refine bind_congr fun w' => ?_
    exact ih h' (by omega)

/-! ## The two ways to an index -/

section Construct

variable {β : Type} {c : BlockCodec β} {s : Log β} {first : Nat} {t : File}

theorem header_eq (version : Nat) : header version first t =
    (leBytes 4 version ++ (leBytes 4 first ++ t)) ++ leBytes 8 npos := by
  rw [header]
  simp only [append_assoc]

/-- The buffer is filled up to the end of the file. -/
theorem atEnd_ok {f : File} {rest : File} (hfirst : first < 2 ^ 32)
    (hf : f = header maxSupportedVersion first t ++ rest) (hsize : f.length < 2 ^ 63) :
    ∃ it, ReverseIterator.atEnd f = .ok it ∧ it.file = f ∧ it.version = maxSupportedVersion ∧
      it.firstBlockNum = first ∧ it.currentPositionInFile + 8 = f.length ∧ it.blocksFound = 0 ∧
      it.endOfBufferPosition = f.length ∧
      Window f it.buffer it.startOfBufferPosition it.endOfBufferPosition ∧
      it.currentPositionInFile < it.startOfBufferPosition + bufLen ∧
      readLE 8 it.buffer ((it.currentPositionInFile - it.startOfBufferPosition) % 2 ^ 32) =
        readLE 8 f it.currentPositionInFile := by
  have hversion : readLE 4 f 0 = some maxSupportedVersion := by
    rw [hf, header]
    simp only [append_assoc]
    exact readLE_append (by decide) [] _
  have hnum : readLE 4 f 4 = some first := by
    refine @readLE_of_eq _ (leBytes 4 maxSupportedVersion) (t ++ (leBytes 8 npos ++ rest)) _ _ _
      ?_ (length_leBytes ..).symm hfirst
    rw [hf, header]
    simp only [append_assoc]
  have hlength : 16 ≤ f.length := by
    rw [hf, length_append, length_header]
    omega
  have hcurrent : (f.length + 2 ^ 64 - 8) % 2 ^ 64 = f.length - 8 := by omega
  obtain ⟨start, buffer, hupdate, hwindow, hstart, hbuffer⟩ := @updateBuffer_ok
    { file := f, version := maxSupportedVersion, firstBlockNum := first,
      currentPositionInFile := f.length - 8 } hsize (by dsimp only; omega)
  refine ⟨{
    file := f, version := maxSupportedVersion, firstBlockNum := first
    currentPositionInFile := f.length - 8, endOfBufferPosition := f.length - 8 + 8
    startOfBufferPosition := start, buffer }, ?_, rfl, rfl, rfl, ?_, rfl, ?_, hwindow, hbuffer, ?_⟩
  · have hpositive : 0 < f.length := by omega
    rw [ReverseIterator.atEnd, hversion, hnum, hcurrent]
    exact eosAssert_bind_ok_iff.mpr ⟨hpositive, hupdate⟩
  · dsimp only
    omega
  · dsimp only
    omega
  · have hlen := bufLen_eq
    dsimp only at hbuffer hstart ⊢
    rw [Nat.mod_eq_of_lt (by omega), readLE, hwindow.readAt hstart (by dsimp only; omega), readLE]

/-- A log with blocks is opened behind the last. -/
theorem openFile_ok {bs : List β} {b : β}
    (h : s.Stored c (header maxSupportedVersion first t) (bs ++ [b]))
    (hfirst : first < 2 ^ 32) (hpos : 0 < first) (hnum : c.num b = first + bs.length) :
    ∃ it, ReverseIterator.openFile s.blockFile = .ok (bs.length + 1, it) ∧
      it.Before (header maxSupportedVersion first t) [] ((bs ++ [b]).map c.pack) := by
  obtain ⟨hd, hhd⟩ : ∃ hd, header maxSupportedVersion first t = hd := ⟨_, rfl⟩
  obtain ⟨it, hit, hfile, hversion, hfirstNum, hcurrent, hfound, hend, hwindow, hbuffer, hread⟩ :=
    atEnd_ok hfirst h.block h.size
  have hblock := h.block
  rw [hhd] at hblock ⊢
  obtain ⟨pos, hposition⟩ : ∃ pos, hd.length + (logBytes hd.length (bs.map c.pack)).length = pos :=
    ⟨_, rfl⟩
  rw [map_append, map_singleton, logBytes_append, logBytes_singleton, hposition] at hblock
  have hsize := h.size
  have hlength := congrArg List.length hblock
  simp only [length_append, length_leBytes] at hlength
  -- the position behind the last block
  have hlocation : readLE 8 s.blockFile it.currentPositionInFile = some pos := by
    refine @readLE_of_eq _ (hd ++ (logBytes hd.length (bs.map c.pack) ++ c.pack b)) [] _ _ _
      ?_ ?_ (by omega)
    · rw [hblock]
      simp only [append_assoc, append_nil]
    · simp only [length_append]
      omega
  -- the number in the last block
  have hprior : ∃ prior, it.priorNum pos = .ok prior ∧ (prior + 1) % 2 ^ 32 = c.num b := by
    obtain ⟨prior, hread, hprior⟩ := c.readNum_append b (hd ++ logBytes hd.length (bs.map c.pack))
      (leBytes 8 pos)
    rw [length_append, hposition, append_assoc, ← hblock] at hread
    refine ⟨prior, ?_, hprior⟩
    rw [ReverseIterator.priorNum]
    have hlen := bufLen_eq
    have hblknum : blknumOffset = 14 := rfl
    have hpack := c.length_pack b
    split
    · next hle =>
      have hoffset : (pos - it.startOfBufferPosition) % 2 ^ 32 + blknumOffset =
          pos + blknumOffset - it.startOfBufferPosition := by omega
      rw [hoffset, readNum, hwindow.readAt (by omega) (by omega)]
      rw [readNum] at hread
      rw [hread]
      rfl
    · rw [hfile, hread]
      rfl
  obtain ⟨prior, hprior, hlast⟩ := hprior
  have hlt := c.num_lt b
  refine ⟨{ it with lastBlockNum := c.num b, blocksExpected := bs.length + 1 }, ?_, ?_⟩
  · rw [ReverseIterator.openFile, hit]
    have hne : pos ≠ npos := by
      rw [npos]
      omega
    show (inBuffer (readLE 8 it.buffer _) >>= _) = _
    rw [hread, hlocation]
    refine (if_neg hne).trans ?_
    rw [hprior]
    dsimp only [bind, Except.bind]
    rw [hlast, hfirstNum, show (c.num b + 2 ^ 32 - first + 1) % 2 ^ 32 = bs.length + 1 by omega]
    rfl
  · have hrecords : logBytes hd.length ((bs ++ [b]).map c.pack) =
        logBytes hd.length (bs.map c.pack) ++ (c.pack b ++ leBytes 8 pos) := by
      rw [map_append, map_singleton, logBytes_append, logBytes_singleton, hposition]
    refine ⟨?_, ?_, ?_, ?_, ?_, ?_, ?_, ?_⟩
    · show it.file = _
      rw [hfile, hblock, hrecords, append_nil]
    · show it.file.length < _
      rw [hfile]
      exact hsize
    · show it.version ≠ 1
      rw [hversion]
      decide
    · show it.currentPositionInFile + 8 = _
      rw [hrecords, hcurrent, hlength]
      simp only [length_append, length_leBytes]
    · show Window it.file _ _ _
      rw [hfile]
      exact hwindow
    · show it.currentPositionInFile + 8 ≤ it.endOfBufferPosition
      omega
    · show it.blocksFound + _ = bs.length + 1
      rw [hfound, length_map, length_append, length_singleton, Nat.zero_add]
    · show bs.length + 1 < _
      omega

/-- A log without blocks is opened at the mark. -/
theorem openFile_empty (h : s.Stored c (header maxSupportedVersion first t) [])
    (hfirst : first < 2 ^ 32) : ∃ it, ReverseIterator.openFile s.blockFile = .ok (0, it) := by
  obtain ⟨it, hit, -, -, -, hcurrent, -, -, -, -, hread⟩ := atEnd_ok hfirst h.block h.size
  refine ⟨it, ?_⟩
  have hlocation : readLE 8 s.blockFile it.currentPositionInFile = some npos := by
    have hblock := h.block
    rw [header_eq, map_nil, logBytes, append_nil] at hblock
    refine @readLE_of_eq _ (leBytes 4 maxSupportedVersion ++ (leBytes 4 first ++ t)) [] _ _ _
      (by rw [hblock, append_nil]) ?_ (by decide)
    rw [hblock, length_append, length_leBytes] at hcurrent
    omega
  rw [ReverseIterator.openFile, hit]
  show (inBuffer (readLE 8 it.buffer _) >>= _) = _
  rw [hread, hlocation]
  rfl

/-- The index is made from the positions that were appended. -/
theorem constructIndex_eq {bs : List β} (hne : bs ≠ [])
    (h : s.Stored c (header maxSupportedVersion first t) bs) (hfirst : first < 2 ^ 32)
    (hpos : 0 < first) (hnums : ∀ i b, bs[i]? = some b → c.num b = first + i) :
    constructIndex s.blockFile =
      (IndexWriter.writeAll { blocksExpected := bs.length } (positions
        (header maxSupportedVersion first t).length (bs.map c.pack)).reverse).map
          IndexWriter.file := by
  rcases eq_nil_or_concat' bs with rfl | ⟨init, b, rfl⟩
  · exact absurd rfl hne
  · obtain ⟨it, hit, hbefore⟩ := openFile_ok h hfirst hpos
      (hnums init.length b List.getElem?_concat_length)
    rw [header_eq] at hbefore
    have hfew := length_le_logBytes (header maxSupportedVersion first t).length
      ((init ++ [b]).map c.pack)
    have hfuel : ((init ++ [b]).map c.pack).length < s.blockFile.length + 1 := by
      rw [h.block, length_append]
      omega
    rw [constructIndex, hit]
    show (constructLoop _ it { blocksExpected := init.length + 1 } >>= fun w => pure w.file) = _
    rw [constructLoop_eq _ hbefore hfuel, ← header_eq, length_append, length_singleton]
    rfl

/-- Only the index of fewer than `2 ^ 29` blocks is made. -/
theorem few_of_constructIndex {bs : List β}
    (h : s.Stored c (header maxSupportedVersion first t) bs) (hfirst : first < 2 ^ 32)
    (hpos : 0 < first) (hnums : ∀ i b, bs[i]? = some b → c.num b = first + i) {index : Option File}
    (hindex : constructIndex s.blockFile = .ok index) : bs.length < 2 ^ 29 := by
  rcases eq_nil_or_concat' bs with rfl | ⟨init, b, rfl⟩
  · exact Nat.two_pow_pos 29
  · have hlast := hnums init.length b List.getElem?_concat_length
    have hlt := c.num_lt b
    obtain ⟨ps, hps⟩ : ∃ ps, (positions (header maxSupportedVersion first t).length
        ((init ++ [b]).map c.pack)).reverse = ps := ⟨_, rfl⟩
    have hlength : (init ++ [b]).length = ps.length := by
      rw [← hps, length_reverse, length_positions, length_map]
    rw [constructIndex_eq (by simp) h hfirst hpos hnums, hps, hlength] at hindex
    rw [hlength]
    cases hwrite : IndexWriter.writeAll { blocksExpected := ps.length } ps with
    | error e =>
      rw [hwrite] at hindex
      cases hindex
    | ok w =>
      rw [length_append, length_singleton] at hlength
      refine few_of_writeAll (by omega) ?_ hwrite
      rintro rfl
      cases hlength

end Construct

theorem Creation.firstBlockNum_pos {β : Type} {c : BlockCodec β} {cr : Creation β} {s : Log β}
    (hs : cr.reset c = .ok s) : 0 < cr.firstBlockNum := by
  cases cr with
  | genesis gs firstBlock => exact Nat.one_pos
  | chainId id firstBlockNum =>
    obtain ⟨hlt, -⟩ := eosAssert_bind_ok_iff.mp hs
    exact Nat.lt_trans Nat.one_pos hlt

/-- The block index.  A log is made, in either way and from any first block
    number, and consecutive blocks of any sizes are appended.  The index is
    made again from the log, equal to the one that the appends left, and finds
    every block by its number and nothing by another number, exactly if there
    are fewer than `2 ^ 29` blocks. -/
theorem constructIndex_iff {β : Type} (c : BlockCodec β) (cr : Creation β)
    (hfirst : cr.firstBlockNum < 2 ^ 32) (bs : List β)
    (hnums : ∀ i b, (cr.blocks ++ bs)[i]? = some b → c.num b = cr.firstBlockNum + i) {s₀ s : Log β}
    (hs₀ : cr.reset c = .ok s₀) (hs : s₀.appendAll c bs = .ok s) :
    (∃ s', s.constructIndex = .ok s' ∧ s'.indexFile = s.indexFile ∧
      ∀ n, s'.readBlockByNum c n = .ok (if cr.firstBlockNum ≤ n then
        (cr.blocks ++ bs)[n - cr.firstBlockNum]? else none)) ↔
      (cr.blocks ++ bs).length < 2 ^ 29 := by
  obtain ⟨hstored0, hfirst0⟩ := Creation.reset_stored hs₀
  obtain ⟨hstored, hfirstNum⟩ := hstored0.appendAll bs hs
  have hpos := Creation.firstBlockNum_pos hs₀
  rw [hfirst0] at hfirstNum
  obtain ⟨all, hall⟩ : ∃ all, cr.blocks ++ bs = all := ⟨_, rfl⟩
  rw [hall] at hnums hstored ⊢
  have hread := hstored.readBlockByNum (by rw [hfirstNum]; exact @hnums)
  rw [hfirstNum] at hread
  -- the index that the appends left, put back in its place
  have hsame : ∀ index, index = s.indexFile → ({ s with indexFile := index } : Log β) = s := by
    rintro index rfl
    rfl
  constructor
  · rintro ⟨s', hs', -, -⟩
    obtain ⟨index, hindex, -⟩ := except_bind_ok hs'
    exact few_of_constructIndex hstored hfirst hpos hnums hindex
  · intro hfew
    refine ⟨s, ?_, rfl, hread⟩
    by_cases hne : all = []
    · subst hne
      obtain ⟨it, hit⟩ := openFile_empty hstored hfirst
      rw [Log.constructIndex, constructIndex, hit]
      exact congrArg Except.ok (hsame [] hstored.index.symm)
    · have hlength : (positions (header maxSupportedVersion cr.firstBlockNum cr.context).length
          (all.map c.pack)).length = all.length := by
        rw [length_positions, length_map]
      obtain ⟨w, hw, hfile⟩ := writeAll_ok
        (length_pos_iff.mp (hlength ▸ length_pos_iff.mpr hne)) (hlength ▸ hfew)
      rw [hlength] at hw
      rw [Log.constructIndex, constructIndex_eq hne hstored hfirst hpos hnums, hw]
      show Except.ok { s with indexFile := w.file.getD [] } = _
      rw [hfile, Option.getD_some]
      exact congrArg Except.ok (hsame _ hstored.index.symm)

/-! ## Blocks that are only their headers' first bytes -/

/-- A block that has the number of the previous block, and zeros in front of
    it. -/
def plainCodec : BlockCodec UInt32 where
  pack prior := List.replicate 14 0 ++ (leBytes 4 prior.toNat).reverse
  unpack f :=
    if 18 ≤ f.length then some (.ofNat (ofLE ((f.drop 14).take 4).reverse), f.drop 18) else none
  unpack_pack prior rest := by
    have hlength : (List.replicate 14 (0 : UInt8) ++ (leBytes 4 prior.toNat).reverse).length =
      18 := by
      rw [List.length_append, List.length_replicate, List.length_reverse, length_leBytes]
    have hdrop :
        (List.replicate 14 (0 : UInt8) ++ (leBytes 4 prior.toNat).reverse ++ rest).drop 14 =
        (leBytes 4 prior.toNat).reverse ++ rest := by
      rw [List.append_assoc]
      exact List.drop_left' List.length_replicate
    rw [if_pos (by rw [List.length_append, hlength]; omega), hdrop]
    refine congrArg some (Prod.ext ?_ ?_)
    · have htake : ((leBytes 4 prior.toNat).reverse ++ rest).take 4 =
          (leBytes 4 prior.toNat).reverse :=
        List.take_left' (by rw [List.length_reverse, length_leBytes])
      show UInt32.ofNat _ = prior
      rw [htake, List.reverse_reverse, ofLE_leBytes,
        Nat.mod_eq_of_lt (show prior.toNat < 256 ^ 4 from prior.toNat_lt), UInt32.ofNat_toNat]
    · exact List.drop_left' hlength
  length_pack prior := by
    rw [List.length_append, List.length_replicate, List.length_reverse, length_leBytes]
    exact Nat.le_refl _

theorem plainCodec_num (prior : UInt32) : plainCodec.num prior = (prior.toNat + 1) % 2 ^ 32 := by
  have hdrop : (plainCodec.pack prior).drop blknumOffset = (leBytes 4 prior.toNat).reverse :=
    drop_left' length_replicate
  have htake : (leBytes 4 prior.toNat).reverse.take 4 = (leBytes 4 prior.toNat).reverse :=
    take_of_length_le (by rw [length_reverse, length_leBytes])
  rw [BlockCodec.num, hdrop, htake, reverse_reverse, ofLE_leBytes,
    Nat.mod_eq_of_lt (show prior.toNat < 256 ^ 4 from prior.toNat_lt)]

/-- The blocks from number 1 on. -/
def plainBlocks (n : Nat) : List UInt32 := (List.range n).map UInt32.ofNat

theorem plainBlocks_num {n : Nat} (hn : n < 2 ^ 32) (i : Nat) (b : UInt32)
    (h : (plainBlocks n)[i]? = some b) : plainCodec.num b = 1 + i := by
  rw [plainBlocks, List.getElem?_map, Option.map_eq_some_iff] at h
  obtain ⟨j, hj, rfl⟩ := h
  obtain ⟨hi, rfl⟩ := List.getElem?_eq_some_iff.mp hj
  rw [length_range] at hi
  rw [getElem_range, plainCodec_num, UInt32.toNat_ofNat']
  omega

/-- Any number of them is appended to a new log. -/
theorem plainLog_ok {n : Nat} (hn : n < 2 ^ 32) : ∃ s0 s : Log UInt32,
    Creation.reset plainCodec (.genesis [] none) = .ok s0 ∧
      s0.appendAll plainCodec (plainBlocks n) = .ok s ∧
      s.Stored plainCodec (header maxSupportedVersion 1 []) (plainBlocks n) := by
  obtain ⟨s0, hs0⟩ : ∃ s0, Creation.reset plainCodec (.genesis [] none) = .ok s0 := ⟨_, rfl⟩
  obtain ⟨hstored0, hfirst0⟩ := Creation.reset_stored hs0
  have hlength : (plainBlocks n).length = n := by
    rw [plainBlocks, length_map, length_range]
  have hsize : ∀ r ∈ (plainBlocks n).map plainCodec.pack, r.length = 18 := by
    intro r hr
    obtain ⟨b, -, rfl⟩ := mem_map.mp hr
    show (List.replicate 14 0 ++ (leBytes 4 b.toNat).reverse).length = 18
    rw [length_append, length_replicate, length_reverse, length_leBytes]
  obtain ⟨s, hs⟩ := hstored0.appendAll_ok (plainBlocks n) (by
    intro i b hb
    rw [plainBlocks_num hn i b hb, hfirst0]
    show 1 + i = 1 + (0 + i)
    omega) (by
    show (header maxSupportedVersion 1 []).length + (logBytes _ ((plainBlocks n).map _)).length < _
    rw [length_logBytes_of_size hsize, length_header, length_map, hlength, length_nil]
    omega)
  exact ⟨s0, s, hs0, hs, (hstored0.appendAll _ hs).1⟩

/-- A log of two blocks. -/
theorem constructIndex_iff_two : ∃ s₀ s : Log UInt32,
    Creation.reset plainCodec (.genesis [] none) = .ok s₀ ∧
      s₀.appendAll plainCodec (plainBlocks 2) = .ok s ∧
      ((∃ s', s.constructIndex = .ok s' ∧ s'.indexFile = s.indexFile ∧
        ∀ n, s'.readBlockByNum plainCodec n = .ok (if 1 ≤ n then
          (plainBlocks 2)[n - 1]? else none)) ↔ (plainBlocks 2).length < 2 ^ 29) := by
  obtain ⟨s₀, s, hs0, hs, -⟩ := @plainLog_ok 2 (by decide)
  exact ⟨s₀, s, hs0, hs, constructIndex_iff plainCodec (.genesis [] none) (by decide)
    (plainBlocks 2) (plainBlocks_num (by decide)) hs0 hs⟩

/-- With `2 ^ 29` blocks the index is not made again. -/
theorem index_not_made : ∃ s₀ s : Log UInt32,
    Creation.reset plainCodec (.genesis [] none) = .ok s₀ ∧
      s₀.appendAll plainCodec (plainBlocks (2 ^ 29)) = .ok s ∧
      ∀ s', s.constructIndex ≠ .ok s' := by
  obtain ⟨s₀, s, hs0, hs, hstored⟩ := @plainLog_ok (2 ^ 29) (by decide)
  refine ⟨s₀, s, hs0, hs, ?_⟩
  intro s' hs'
  obtain ⟨index, hindex, -⟩ := except_bind_ok hs'
  have hfew := few_of_constructIndex hstored (by decide) Nat.one_pos
    (plainBlocks_num (by decide)) hindex
  rw [plainBlocks, length_map, length_range] at hfew
  exact absurd hfew (Nat.lt_irrefl _)

end BlockFiles
