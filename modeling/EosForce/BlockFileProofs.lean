import EosForce.IndexWriterProofs

/-! # The block log

    The log is a header, which ends with a mark, and the blocks, each followed
    by its position.  The index gets the positions as the blocks are appended;
    when it is lost it is made again from the log, which is read backwards
    through a buffer.  Both ways give the same index as long as there are fewer
    than `2 ^ 29` blocks; with more the index is not made. -/

namespace BlockFiles

open ChainTypes ByteFile PositionLog List

/-! ## Blocks -/

/-- `trim_data::blknum_offset`: where the previous id starts in a packed
    block. -/
def blknumOffset : Nat := 14

/-- How blocks are packed.  A packed block has the id of the previous block
    behind its first 14 bytes. -/
structure BlockCodec (β : Type) where
  pack : β → File
  unpack : File → Option (β × File)
  unpack_pack : ∀ b rest, unpack (pack b ++ rest) = some (b, rest)
  length_pack : ∀ b, blknumOffset + 4 ≤ (pack b).length

/-- The number at the start of a block id, the highest byte first. -/
def readNum (f : File) (pos : Nat) : Option Nat :=
  (readAt f pos 4).map fun d => ofLE d.reverse

/-- `block_num`: the number in the previous id and one. -/
def BlockCodec.num {β : Type} (c : BlockCodec β) (b : β) : Nat :=
  (ofLE (((c.pack b).drop blknumOffset).take 4).reverse + 1) % 2 ^ 32

variable {β : Type}

theorem BlockCodec.num_lt (c : BlockCodec β) (b : β) : c.num b < 2 ^ 32 :=
  Nat.mod_lt _ (Nat.two_pow_pos 32)

/-- The number of a block is found where the block is. -/
theorem BlockCodec.readNum_append (c : BlockCodec β) (b : β) (f g : File) :
    ∃ prior, readNum (f ++ (c.pack b ++ g)) (f.length + blknumOffset) = some prior ∧
      (prior + 1) % 2 ^ 32 = c.num b := by
  refine ⟨ofLE (((c.pack b).drop blknumOffset).take 4).reverse, ?_, rfl⟩
  have hlength := c.length_pack b
  have hsplit : f ++ (c.pack b ++ g) = (f ++ (c.pack b).take blknumOffset) ++
      (((c.pack b).drop blknumOffset).take 4 ++ (((c.pack b).drop blknumOffset).drop 4 ++ g)) := by
    rw [← append_assoc (List.take 4 _), take_append_drop, append_assoc f,
      ← append_assoc (List.take blknumOffset _), take_append_drop]
  have hpos : f.length + blknumOffset = (f ++ (c.pack b).take blknumOffset).length := by
    rw [length_append, length_take, Nat.min_eq_left (by omega)]
  have hfour : (((c.pack b).drop blknumOffset).take 4).length = 4 := by
    rw [length_take, length_drop]
    omega
  have hread := readAt_append (f ++ (c.pack b).take blknumOffset)
    (((c.pack b).drop blknumOffset).take 4) (((c.pack b).drop blknumOffset).drop 4 ++ g)
  rw [hfour] at hread
  rw [readNum, hsplit, hpos, hread]
  rfl

/-! ## Appending and reading -/

/-- `block_log::npos`. -/
def npos : Nat := 2 ^ 64 - 1

/-- `max_supported_version`. -/
def maxSupportedVersion : Nat := 3

/-- `is_supported_version`. -/
def isSupportedVersion (version : Nat) : Bool := max 1 (min version maxSupportedVersion) = version

/-- `block_log_impl`: the two files, the last block, and what the header
    says. -/
structure Log (β : Type) where
  blockFile : File := []
  indexFile : File := []
  head : Option β := none
  genesisWrittenToBlockLog : Bool := false
  version : Nat := 0
  firstBlockNum : Nat := 0

/-- `block_log_impl::append`; the difference of the numbers is a
    `uint32_t`. -/
def Log.append (c : BlockCodec β) (s : Log β) (b : β) : Except FcException (Nat × Log β) := do
  eosAssert s.genesisWrittenToBlockLog .blockLogAppendFail
    "Cannot append to block log until the genesis is first written"
  let pos := s.blockFile.length
  eosAssert (s.indexFile.length = 8 * ((c.num b + 2 ^ 32 - s.firstBlockNum) % 2 ^ 32))
    .blockLogAppendFail "Append to index file occuring at wrong position."
  let blockFile ← fromFile (extend s.blockFile (c.pack b))
  let blockFile ← fromFile (extend blockFile (leBytes 8 pos))
  let indexFile ← fromFile (extend s.indexFile (leBytes 8 pos))
  pure (pos, { s with blockFile, indexFile, head := some b })

/-- Blocks appended one after the other. -/
def Log.appendAll (c : BlockCodec β) : Log β → List β → Except FcException (Log β)
  | s, [] => .ok s
  | s, b :: bs => do
      let (_, s) ← s.append c b
      s.appendAll c bs

/-- The header of a log: version, number of the first block, what the chain is
    known by, and the mark that ends it. -/
def header (version firstBlockNum : Nat) (t : File) : File :=
  leBytes 4 version ++ (leBytes 4 firstBlockNum ++ (t ++ leBytes 8 npos))

/-- `block_log_impl::reset`; the version is written when all the rest is. -/
def resetImpl (c : BlockCodec β) (t : File) (firstBlock : Option β) (firstBnum : Nat) :
    Except FcException (Log β) := do
  let blockFile ← fromFile (extend [] (header 0 firstBnum t))
  let s ← Log.appendAll c
    { blockFile, genesisWrittenToBlockLog := true, firstBlockNum := firstBnum } firstBlock.toList
  pure { s with
    blockFile := writeAt s.blockFile 0 (leBytes 4 maxSupportedVersion)
    version := maxSupportedVersion }

/-- How a log is made: with the packed genesis state, and the first block if
    there is one, or with a chain id and the number of the first block. -/
inductive Creation (β : Type) where
  | genesis (gs : File) (firstBlock : Option β)
  | chainId (id : File) (firstBlockNum : Nat)

def Creation.firstBlockNum : Creation β → Nat
  | .genesis _ _ => 1
  | .chainId _ firstBlockNum => firstBlockNum

/-- What identifies the chain in the header. -/
def Creation.context : Creation β → File
  | .genesis gs _ => gs
  | .chainId id _ => id

def Creation.blocks : Creation β → List β
  | .genesis _ firstBlock => firstBlock.toList
  | .chainId _ _ => []

/-- The two `block_log::reset`. -/
def Creation.reset (c : BlockCodec β) : Creation β → Except FcException (Log β)
  | .genesis gs firstBlock => resetImpl c gs firstBlock 1
  | .chainId id firstBlockNum => do
      eosAssert (1 < firstBlockNum) .blockLog
        "Block log version $\x7bver\x7d needs to be created with a genesis state if starting from block number 1."
      resetImpl c id none firstBlockNum

/-- `get_block_pos`. -/
def Log.getBlockPos (c : BlockCodec β) (s : Log β) (blockNum : Nat) : Except FcException Nat :=
  match s.head with
  | some head =>
    if blockNum ≤ c.num head ∧ s.firstBlockNum ≤ blockNum then
      fromFile (readLE 8 s.indexFile (8 * (blockNum - s.firstBlockNum)))
    else .ok npos
  | none => .ok npos

/-- `read_block`. -/
def Log.readBlock (c : BlockCodec β) (s : Log β) (pos : Nat) : Except FcException β :=
  fromFile ((c.unpack (s.blockFile.drop pos)).map Prod.fst)

/-- `read_block_by_num`. -/
def Log.readBlockByNum (c : BlockCodec β) (s : Log β) (blockNum : Nat) :
    Except FcException (Option β) := do
  let pos ← s.getBlockPos c blockNum
  if pos ≠ npos then do
    let b ← s.readBlock c pos
    eosAssert (c.num b = blockNum) .reversibleBlocks "Wrong block was read from block log."
    pure (some b)
  else pure none

/-! ## What the appends leave -/

/-- The files behind a header: the blocks and their positions. -/
structure Log.Stored (c : BlockCodec β) (s : Log β) (head : File) (bs : List β) : Prop where
  block : s.blockFile = head ++ logBytes head.length (bs.map c.pack)
  index : s.indexFile = indexBytes (positions head.length (bs.map c.pack))
  size : s.blockFile.length < 2 ^ 63
  head : s.head = bs.getLast?
  written : s.genesisWrittenToBlockLog = true

section Stored

variable {c : BlockCodec β} {s s' : Log β} {hd : File} {bs : List β} {b : β}

theorem Log.Stored.append (h : s.Stored c hd bs) {pos : Nat} (hs : s.append c b = .ok (pos, s')) :
    s'.Stored c hd (bs ++ [b]) ∧ s'.firstBlockNum = s.firstBlockNum := by
  obtain ⟨-, hs⟩ := eosAssert_bind_ok_iff.mp hs
  obtain ⟨-, hs⟩ := eosAssert_bind_ok_iff.mp hs
  obtain ⟨block1, hblock1, hs⟩ := except_bind_ok hs
  obtain ⟨block2, hblock2, hs⟩ := except_bind_ok hs
  obtain ⟨index, hindex, hs⟩ := except_bind_ok hs
  obtain ⟨rfl, -⟩ := extend_some (fromFile_ok hblock1)
  obtain ⟨rfl, hsize⟩ := extend_some (fromFile_ok hblock2)
  obtain ⟨rfl, -⟩ := extend_some (fromFile_ok hindex)
  cases hs
  have hlength : s.blockFile.length = hd.length + (logBytes hd.length (bs.map c.pack)).length := by
    rw [h.block, length_append]
  refine ⟨⟨?_, ?_, hsize, ?_, h.written⟩, rfl⟩
  · rw [map_append, map_singleton, logBytes_append, logBytes_singleton, ← hlength]
    show s.blockFile ++ c.pack b ++ leBytes 8 s.blockFile.length = _
    rw [← append_assoc hd, ← h.block, append_assoc]
  · rw [map_append, map_singleton, positions_append, indexBytes_append, ← h.index,
      ← hlength, positions, positions, indexBytes_cons]
    show s.indexFile ++ leBytes 8 s.blockFile.length = _
    rw [indexBytes, flatMap_nil, append_nil]
  · exact List.getLast?_concat.symm

theorem Log.Stored.appendAll (bs' : List β) : ∀ {s s' : Log β} {bs : List β}, s.Stored c hd bs →
    s.appendAll c bs' = .ok s' →
    s'.Stored c hd (bs ++ bs') ∧ s'.firstBlockNum = s.firstBlockNum := by
  induction bs' with
  | nil =>
    intro s s' bs h hs
    cases hs
    rw [append_nil]
    exact ⟨h, rfl⟩
  | cons b bs' ih =>
    intro s s' bs h hs
    obtain ⟨⟨pos, s1⟩, hs1, hs⟩ := except_bind_ok hs
    obtain ⟨h1, hfirst1⟩ := h.append hs1
    obtain ⟨h', hfirst'⟩ := ih h1 hs
    rw [append_assoc, singleton_append] at h'
    exact ⟨h', hfirst'.trans hfirst1⟩

end Stored

theorem length_header (version first : Nat) (t : File) :
    (header version first t).length = 16 + t.length := by
  simp only [header, length_append, length_leBytes]
  omega

theorem resetImpl_stored {c : BlockCodec β} {t : File} {firstBlock : Option β} {firstBnum : Nat}
    {s : Log β} (hs : resetImpl c t firstBlock firstBnum = .ok s) :
    s.Stored c (header maxSupportedVersion firstBnum t) firstBlock.toList ∧
      s.firstBlockNum = firstBnum := by
  obtain ⟨blockFile, hfile, hs⟩ := except_bind_ok hs
  obtain ⟨s1, hs1, hs⟩ := except_bind_ok hs
  obtain ⟨hfile, hsize⟩ := extend_some (fromFile_ok hfile)
  cases hs
  have hempty : Log.Stored c
      { blockFile, genesisWrittenToBlockLog := true, firstBlockNum := firstBnum }
      (header 0 firstBnum t) [] :=
    ⟨hfile.trans (append_nil _).symm, rfl, hsize, rfl, rfl⟩
  obtain ⟨h, hfirst⟩ := hempty.appendAll firstBlock.toList hs1
  rw [nil_append] at h
  have hlength : (header maxSupportedVersion firstBnum t).length =
    (header 0 firstBnum t).length := by
    rw [length_header, length_header]
  have hpatch : writeAt s1.blockFile 0 (leBytes 4 maxSupportedVersion) =
      header maxSupportedVersion firstBnum t ++
        logBytes (header 0 firstBnum t).length (firstBlock.toList.map c.pack) := by
    have hwrite := writeAt_append [] s1.blockFile (leBytes 4 maxSupportedVersion)
    rw [nil_append] at hwrite
    rw [show (0 : Nat) = ([] : File).length from rfl, hwrite, nil_append, h.block, header,
      header, length_leBytes]
    simp only [append_assoc]
    rfl
  refine ⟨⟨?_, ?_, ?_, h.head, h.written⟩, hfirst⟩
  · rw [hlength]
    exact hpatch
  · rw [hlength]
    exact h.index
  · have hold := h.size
    show (writeAt s1.blockFile 0 _).length < _
    rw [hpatch, length_append, hlength, ← length_append, ← h.block]
    exact hold

theorem Creation.reset_stored {c : BlockCodec β} {cr : Creation β} {s : Log β}
    (hs : cr.reset c = .ok s) :
    s.Stored c (header maxSupportedVersion cr.firstBlockNum cr.context) cr.blocks ∧
      s.firstBlockNum = cr.firstBlockNum := by
  cases cr with
  | genesis gs firstBlock => exact resetImpl_stored hs
  | chainId id firstBlockNum =>
    obtain ⟨-, hs⟩ := eosAssert_bind_ok_iff.mp hs
    exact resetImpl_stored hs

/-! ## Reading by number -/

section Reading

variable {c : BlockCodec β} {s : Log β} {hd : File} {bs : List β}

/-- A block in the log, and its position in the index. -/
theorem Log.Stored.block_at (h : s.Stored c hd bs) {i : Nat} {b : β} (hi : bs[i]? = some b) :
    ∃ pos rest, readLE 8 s.indexFile (8 * i) = some pos ∧ pos < 2 ^ 63 ∧
      s.blockFile.drop pos = c.pack b ++ rest := by
  have hpack : (bs.map c.pack)[i]? = some (c.pack b) := by
    rw [List.getElem?_map, hi]
    rfl
  have hlt := (List.getElem?_eq_some_iff.mp hpack).1
  obtain ⟨rest, hrest⟩ := logBytes_split hpack hd.length
  have hfile := h.block
  rw [hrest, ← append_assoc] at hfile
  have hsize := h.size
  have hpos : (hd ++ logBytes hd.length ((bs.map c.pack).take i)).length < 2 ^ 63 := by
    rw [hfile, length_append] at hsize
    omega
  refine ⟨_, _, ?_, hpos, (congrArg (List.drop _) hfile).trans drop_left⟩
  rw [h.index]
  refine readLE_indexBytes ?_ (by omega)
  rw [positions_get hlt, length_append]

/-- With the index that the appends leave, every block is read by its number,
    and nothing by any other. -/
theorem Log.Stored.readBlockByNum (h : s.Stored c hd bs)
    (hnums : ∀ {i b}, bs[i]? = some b → c.num b = s.firstBlockNum + i) (n : Nat) :
    s.readBlockByNum c n =
      .ok (if s.firstBlockNum ≤ n then bs[n - s.firstBlockNum]? else none) := by
  rcases eq_nil_or_concat' bs with rfl | ⟨init, last, rfl⟩
  · rw [Log.readBlockByNum, Log.getBlockPos, h.head]
    show Except.ok none = _
    rw [List.getElem?_nil, ite_self]
  · have hlast := hnums (show (init ++ [last])[init.length]? = some last from
      List.getElem?_concat_length)
    rw [Log.readBlockByNum, Log.getBlockPos, h.head, List.getLast?_concat]
    by_cases hfirst : s.firstBlockNum ≤ n
    · obtain ⟨i, rfl⟩ := Nat.exists_eq_add_of_le hfirst
      rw [if_pos hfirst, Nat.add_sub_cancel_left]
      by_cases hin : i ≤ init.length
      · obtain ⟨b, hb⟩ : ∃ b, (init ++ [last])[i]? = some b :=
          ⟨_, List.getElem?_eq_getElem (by rw [length_append, length_singleton]; omega)⟩
        obtain ⟨pos, rest, hindex, hpos, hblock⟩ := h.block_at hb
        have hne : pos ≠ npos := by
          rw [npos]
          omega
        dsimp only
        rw [if_pos ⟨by omega, hfirst⟩, hindex]
        show (if pos ≠ npos then _ else _) = _
        rw [if_pos hne, Log.readBlock, hblock, c.unpack_pack, hb]
        exact eosAssert_bind_ok_iff.mpr ⟨hnums hb, rfl⟩
      · rw [List.getElem?_eq_none (by rw [length_append, length_singleton]; omega)]
        dsimp only
        rw [if_neg (by omega)]
        rfl
    · dsimp only
      rw [if_neg (by omega), if_neg hfirst]
      rfl

end Reading

/-! ## Appends that succeed -/

/-- Consecutive blocks are appended as long as the file can grow. -/
theorem Log.Stored.appendAll_ok {c : BlockCodec β} {hd : File} (bs' : List β) :
    ∀ {s : Log β} {bs : List β}, s.Stored c hd bs →
    (∀ {i b}, bs'[i]? = some b → c.num b = s.firstBlockNum + (bs.length + i)) →
    hd.length + (logBytes hd.length ((bs ++ bs').map c.pack)).length < 2 ^ 63 →
    ∃ s', s.appendAll c bs' = .ok s' := by
  induction bs' with
  | nil =>
    intro s bs _ _ _
    exact ⟨s, rfl⟩
  | cons b bs' ih =>
    intro s bs h hnums hsize
    rw [← singleton_append, ← append_assoc] at hsize
    have hnum := hnums (show (b :: bs')[0]? = some b from rfl)
    have hlt := c.num_lt b
    have hblock := congrArg List.length h.block
    have hindex := congrArg List.length h.index
    rw [length_append] at hblock
    rw [length_indexBytes, length_positions, length_map] at hindex
    have hnext : hd.length + (logBytes hd.length (bs.map c.pack)).length +
        (c.pack b).length + 8 < 2 ^ 63 := by
      rw [map_append, logBytes_append, map_append, logBytes_append, map_singleton,
        logBytes_singleton] at hsize
      simp only [length_append, length_leBytes] at hsize
      omega
    have hfew := length_le_logBytes hd.length (bs.map c.pack)
    rw [length_map] at hfew
    have happ : s.append c b = .ok (s.blockFile.length, { s with
        blockFile := s.blockFile ++ c.pack b ++ leBytes 8 s.blockFile.length
        indexFile := s.indexFile ++ leBytes 8 s.blockFile.length
        head := some b }) := by
      rw [Log.append]
      refine eosAssert_bind_ok_iff.mpr ⟨h.written, eosAssert_bind_ok_iff.mpr ⟨?_, ?_⟩⟩
      · rw [hindex, hnum]
        omega
      · rw [extend, if_pos (by omega)]
        show (fromFile (extend (s.blockFile ++ c.pack b) _) >>= _) = _
        rw [extend, if_pos (by rw [length_append, length_leBytes]; omega)]
        show (fromFile (extend s.indexFile _) >>= _) = _
        rw [extend, if_pos (by rw [length_leBytes]; omega)]
        rfl
    obtain ⟨h1, hfirst⟩ := h.append happ
    obtain ⟨s', hs'⟩ := ih h1 (by
      intro i b' hb'
      rw [hfirst, hnums (show (b :: bs')[i + 1]? = some b' from hb'), length_append,
        length_singleton]
      omega) hsize
    refine ⟨s', ?_⟩
    rw [Log.appendAll, happ]
    exact hs'

end BlockFiles
