import Mathlib.Data.List.Induction
import EosForce.PositionLogProofs
import EosForce.ChainTypesProofs

/-! # The state history log

    An entry of the log is a header with the id of a block and the payload of
    the block, followed by its position; the index has the positions.  A block
    that is written again, after a fork or in a replay, first cuts the log off
    at its place.

    `write_entry` neither looks at the magic number of the header it is given
    nor at the last block number that fits: an entry with another magic number
    is never read again, and behind the number `2 ^ 32 - 1` the range of the
    log is empty.  With neither of these the log holds what was last written
    for every block of its range, and the files alone give it back. -/

namespace StateHistory

open ChainTypes ByteFile PositionLog List

/-! ## Headers -/

/-- A block id: 32 bytes. -/
structure BlockId where
  bytes : File
  length_bytes : bytes.length = 32
deriving DecidableEq

/-- `block_id_type{}`. -/
def BlockId.zero : BlockId := ⟨List.replicate 32 0, rfl⟩

/-- `block_header::num_from_id`: the first four bytes, the highest first. -/
def BlockId.num (id : BlockId) : Nat := ofLE (id.bytes.take 4).reverse

/-- `N(ship).to_uint64_t()`. -/
def shipName : UInt64 := 0xc35d500000000000

/-- `ship_magic`. -/
def shipMagic (version : UInt32) : UInt64 := shipName ||| version.toUInt64

/-- `is_ship`. -/
def isShip (magic : UInt64) : Bool := magic &&& 0xffffffff00000000 == shipName

/-- `get_ship_version`. -/
def getShipVersion (magic : UInt64) : UInt32 := magic.toUInt32

/-- `is_ship_supported_version`. -/
def isShipSupportedVersion (magic : UInt64) : Bool := getShipVersion magic == 0

/-- `ship_current_version`. -/
def shipCurrentVersion : UInt32 := 0

/-- `state_history_log_header`. -/
structure Header where
  magic : UInt64 := shipMagic shipCurrentVersion
  blockId : BlockId := .zero
  payloadSize : UInt64 := 0
deriving DecidableEq

variable (header : Header)

/-- The magic number is one that the log reads. -/
def Header.supported : Bool :=
  isShip header.magic && isShipSupportedVersion header.magic

/-- `state_history_log_header_serial_size`. -/
def headerSerialSize : Nat := 8 + 32 + 8

/-- `fc::raw::pack` of a header. -/
def Header.pack : File :=
  leBytes 8 header.magic.toNat ++ (header.blockId.bytes ++ leBytes 8 header.payloadSize.toNat)

/-- A block id in a file. -/
def readBlockId (f : File) (pos : Nat) : Option BlockId :=
  if h : ((f.drop pos).take 32).length = 32 then some ⟨(f.drop pos).take 32, h⟩ else none

/-- The header at a position. -/
def unpackHeader (f : File) (pos : Nat) : Option Header := do
  let magic ← readLE 8 f pos
  let blockId ← readBlockId f (pos + 8)
  let payloadSize ← readLE 8 f (pos + 40)
  some ⟨.ofNat magic, blockId, .ofNat payloadSize⟩

theorem Header.length_pack : header.pack.length = headerSerialSize := by
  rw [pack, length_append, length_append, length_leBytes, length_leBytes,
    header.blockId.length_bytes]
  rfl

theorem readBlockId_append (id : BlockId) (a b : File) :
    readBlockId (a ++ (id.bytes ++ b)) a.length = some id := by
  have htake : ((a ++ (id.bytes ++ b)).drop a.length).take 32 = id.bytes := by
    rw [drop_left, ← id.length_bytes, take_left]
  rw [readBlockId, dif_pos (by rw [htake, id.length_bytes])]
  exact congrArg some (by cases id; exact (BlockId.mk.injEq ..).mpr htake)

/-- A header that was packed is read back. -/
theorem unpackHeader_append (a b : File) :
    unpackHeader (a ++ (header.pack ++ b)) a.length = some header := by
  have hmagic : readLE 8 (a ++ (header.pack ++ b)) a.length = some header.magic.toNat := by
    rw [Header.pack, append_assoc]
    exact readLE_append header.magic.toNat_lt a _
  have hid : readBlockId (a ++ (header.pack ++ b)) (a.length + 8) = some header.blockId := by
    have hpos : a.length + 8 = (a ++ leBytes 8 header.magic.toNat).length := by
      rw [length_append, length_leBytes]
    rw [Header.pack, hpos, append_assoc, ← append_assoc a, append_assoc header.blockId.bytes]
    exact readBlockId_append header.blockId _ _
  have hsize : readLE 8 (a ++ (header.pack ++ b)) (a.length + 40) =
      some header.payloadSize.toNat := by
    have hpos : a.length + 40 =
        (a ++ (leBytes 8 header.magic.toNat ++ header.blockId.bytes)).length := by
      rw [length_append, length_append, length_leBytes, header.blockId.length_bytes]
    rw [Header.pack, hpos, ← append_assoc (leBytes 8 _), append_assoc, ← append_assoc a]
    exact readLE_append header.payloadSize.toNat_lt _ b
  rw [unpackHeader, hmagic]
  dsimp only [Option.bind_eq_bind, Option.bind_some]
  rw [hid]
  dsimp only [Option.bind_some]
  rw [hsize]
  dsimp only [Option.bind_some]
  rw [UInt64.ofNat_toNat, UInt64.ofNat_toNat]

/-! ## The log -/

/-- `state_history_log`: its two files and its range. -/
structure Log where
  log : File := []
  index : File := []
  beginBlock : Nat := 0
  endBlock : Nat := 0
  lastBlockId : BlockId := .zero
deriving DecidableEq

/-- `read_header`. -/
def readHeader (f : File) (pos : Nat) (assertVersion : Bool := true) :
    Except FcException Header := do
  let header ← fromFile (unpackHeader f pos)
  eosAssert (assertVersion → header.supported) .plugin "corrupt $\x7bname\x7d.log (0)"
  pure header

variable (s : Log) (blockNum : Nat)

/-- `get_pos`; the block is not before the first. -/
def Log.getPos : Except FcException Nat :=
  fromFile (readLE 8 s.index (8 * (blockNum - s.beginBlock)))

/-- `get_entry`: the header, and where the payload starts. -/
def Log.getEntry : Except FcException (Header × Nat) := do
  eosAssert (s.beginBlock ≤ blockNum ∧ blockNum < s.endBlock) .plugin
    "read non-existing block in $\x7bname\x7d.log"
  let pos ← s.getPos blockNum
  let header ← readHeader s.log pos
  pure (header, pos + headerSerialSize)

/-- `truncate`. -/
def Log.truncate : Except FcException Log :=
  if blockNum ≤ s.beginBlock then
    .ok { s with log := [], index := [], beginBlock := 0, endBlock := 0 }
  else do
    let pos ← s.getPos blockNum
    pure { s with
      log := resize s.log pos
      index := resize s.index (8 * (blockNum - s.beginBlock))
      endBlock := blockNum }

/-- The check of `write_entry` that the block before is the one in the log. -/
def Log.checkPrevious (prevId : BlockId) : Except FcException Unit :=
  if s.beginBlock ≠ s.endBlock ∧ s.beginBlock < blockNum then
    if blockNum = s.endBlock then
      eosAssert (prevId = s.lastBlockId) .plugin "missed a fork change in $\x7bname\x7d.log"
    else do
      let (prev, _) ← s.getEntry (blockNum - 1)
      eosAssert (prevId = prev.blockId) .plugin "missed a fork change in $\x7bname\x7d.log"
  else pure ()

/-- The part of `write_entry` that adds the entry; `payload` is what
    `write_payload` writes. -/
def Log.addEntry (header : Header) (payload : File) : Except FcException Log := do
  let pos := s.log.length
  let log ← fromFile (extend s.log (header.pack ++ payload))
  eosAssert (log.length = (pos + headerSerialSize + header.payloadSize.toNat) % 2 ^ 64) .plugin
    "wrote payload with incorrect size to $\x7bname\x7d.log"
  let log ← fromFile (extend log (leBytes 8 pos))
  let index ← fromFile (extend s.index (leBytes 8 pos))
  pure {
    log
    index
    beginBlock := if s.beginBlock = s.endBlock then header.blockId.num else s.beginBlock
    endBlock := (header.blockId.num + 1) % 2 ^ 32
    lastBlockId := header.blockId }

/-- `write_entry`. -/
def Log.writeEntry (header : Header) (prevId : BlockId) (payload : File) :
    Except FcException Log := do
  let blockNum := header.blockId.num
  eosAssert (s.beginBlock = s.endBlock ∨ blockNum ≤ s.endBlock) .plugin
    "missed a block in $\x7bname\x7d.log"
  s.checkPrevious blockNum prevId
  let s ← (if blockNum < s.endBlock then s.truncate blockNum else .ok s)
  s.addEntry header payload

/-! ## Opening the files -/

/-- `get_last_block`; `none` is a log found corrupt. -/
def Log.getLastBlock (size : Nat) : Except FcException (Option Log) := do
  let suffix ← fromFile (readLE 8 s.log (size - 8))
  if size < suffix ∨ size < (suffix + headerSerialSize) % 2 ^ 64 then pure none
  else
    let header ← readHeader s.log suffix false
    if ¬ header.supported ∨
        (suffix + headerSerialSize + header.payloadSize.toNat + 8) % 2 ^ 64 ≠ size then pure none
    else
      let endBlock := (header.blockId.num + 1) % 2 ^ 32
      if endBlock ≤ s.beginBlock then pure none
      else pure (some { s with endBlock, lastBlockId := header.blockId })

/-- The loop of `recover_blocks`: where the entries that are whole end. -/
def recoverPos (f : File) : Nat → Nat → Except FcException Nat
  | 0, pos => .ok pos
  | fuel + 1, pos =>
    if f.length < pos + headerSerialSize then .ok pos
    else do
      let header ← readHeader f pos false
      let suffixPos := pos + headerSerialSize + header.payloadSize.toNat
      if ¬ header.supported ∨ f.length < header.payloadSize.toNat ∨
          f.length < suffixPos + 8 then do
        eosAssert (¬ isShip header.magic ∨ isShipSupportedVersion header.magic) .plugin
          "$\x7bname\x7d.log has an unsupported version"
        pure pos
      else
        let suffix ← fromFile (readLE 8 f suffixPos)
        if suffix ≠ pos then pure pos else recoverPos f fuel (suffixPos + 8)

/-- `recover_blocks`; an entry takes more than a byte. -/
def Log.recoverBlocks : Except FcException Log := do
  let pos ← recoverPos s.log (s.log.length + 1) 0
  let found ← { s with log := resize s.log pos }.getLastBlock pos
  match found with
  | some s => pure s
  | none => .error ⟨.plugin, "recover $\x7bname\x7d.log failed"⟩

/-- `open_log`. -/
def openLog (log : File) : Except FcException Log :=
  if headerSerialSize ≤ log.length then do
    let header ← readHeader log 0 false
    eosAssert (header.supported ∧
        (headerSerialSize + header.payloadSize.toNat + 8) % 2 ^ 64 ≤ log.length) .plugin
      "corrupt $\x7bname\x7d.log (1)"
    let s : Log := { log, beginBlock := header.blockId.num, lastBlockId := header.blockId }
    let found ← s.getLastBlock log.length
    match found with
    | some s => pure s
    | none => s.recoverBlocks
  else do
    eosAssert (log.length = 0) .plugin "corrupt $\x7bname\x7d.log (5)"
    pure { log }

/-- The loop of `open_index`: the index of the entries from a position on. -/
def regenerate (f : File) : Nat → Nat → File → Except FcException File
  | 0, _, _ => fromFile none
  | fuel + 1, pos, index =>
    if pos < f.length then do
      eosAssert (pos + headerSerialSize ≤ f.length) .plugin "corrupt $\x7bname\x7d.log (6)"
      let header ← readHeader f pos false
      let suffixPos := (pos + headerSerialSize + header.payloadSize.toNat) % 2 ^ 64
      eosAssert (header.supported ∧ (suffixPos + 8) % 2 ^ 64 ≤ f.length) .plugin
        "corrupt $\x7bname\x7d.log (7)"
      let suffix ← fromFile (readLE 8 f suffixPos)
      eosAssert (suffix = pos) .plugin "corrupt $\x7bname\x7d.log (8)"
      let index ← fromFile (extend index (leBytes 8 pos))
      regenerate f fuel ((suffixPos + 8) % 2 ^ 64) index
    else .ok index

/-- `open_index`: an index of the right size is taken as it is.  The number of
    entries is a `uint32_t`. -/
def Log.openIndex (index : File) : Except FcException Log :=
  if index.length = (s.endBlock + 2 ^ 32 - s.beginBlock) % 2 ^ 32 * 8 then
    .ok { s with index }
  else do
    let index ← regenerate s.log (s.log.length + 1) 0 []
    pure { s with index }

/-- The constructor of `state_history_log`, on the files that are there. -/
def openFiles (log index : File) : Except FcException Log := do
  let s ← openLog log
  s.openIndex index

/-! ## What the log holds -/

/-- The arguments of a call of `write_entry`. -/
structure Write where
  header : Header
  prevId : BlockId
  payload : File
deriving DecidableEq

def Write.num (w : Write) : Nat := w.header.blockId.num

/-- The entry without its position. -/
def Write.entry (w : Write) : File := w.header.pack ++ w.payload

def Log.write (w : Write) : Except FcException Log :=
  s.writeEntry w.header w.prevId w.payload

/-- Where the `i`-th entry starts. -/
def place (ws : List Write) (i : Nat) : Nat :=
  (logBytes 0 ((ws.map Write.entry).take i)).length

/-- The files hold the entries `ws`, whose numbers make up the range. -/
structure Log.Stored (s : Log) (ws : List Write) : Prop where
  log : s.log = logBytes 0 (ws.map Write.entry)
  index : s.index = indexBytes (positions 0 (ws.map Write.entry))
  size : s.log.length < 2 ^ 63
  nums : ∀ {i w}, ws[i]? = some w → w.num = s.beginBlock + i
  range : s.endBlock = s.beginBlock + ws.length
  fits : s.endBlock < 2 ^ 32
  empty : ws = [] → s.beginBlock = 0
  sizes : ∀ w ∈ ws, w.payload.length = w.header.payloadSize.toNat
  supported : ∀ w ∈ ws, w.header.supported
  linked : ∀ {i w w'}, ws[i]? = some w → ws[i + 1]? = some w' → w'.prevId = w.header.blockId

section Stored

variable {s : Log} {ws : List Write} {i : Nat} {w : Write}

section

variable (h : s.Stored ws) (hi : ws[i]? = some w)
include h hi

/-- An entry in the log, behind those before it and in front of its
    position. -/
theorem Log.Stored.bytes :
    ∃ a rest, s.log = a ++ (w.header.pack ++ (w.payload ++ (leBytes 8 (place ws i) ++ rest))) ∧
      a.length = place ws i := by
  have hentry : (ws.map Write.entry)[i]? = some w.entry := by rw [List.getElem?_map, hi]; rfl
  obtain ⟨rest, hrest⟩ := logBytes_split hentry 0
  rw [Nat.zero_add, Write.entry, append_assoc] at hrest
  exact ⟨_, rest, h.log.trans hrest, rfl⟩

theorem Log.Stored.place_le :
    place ws i + headerSerialSize + w.payload.length + 8 ≤ s.log.length := by
  obtain ⟨a, rest, hlog, ha⟩ := h.bytes hi
  rw [hlog]
  simp only [length_append, w.header.length_pack, length_leBytes, ha]
  omega

/-- The index has the place of every entry. -/
theorem Log.Stored.readIndex : readLE 8 s.index (8 * i) = some (place ws i) := by
  have hlt : i < (ws.map Write.entry).length := by
    rw [length_map]
    exact (List.getElem?_eq_some_iff.mp hi).1
  have hpos := positions_get hlt 0
  rw [Nat.zero_add] at hpos
  have hle := h.place_le hi
  have hsize := h.size
  rw [h.index]
  exact readLE_indexBytes hpos (show place ws i < 2 ^ 64 by omega)

theorem Log.Stored.getPos : s.getPos (s.beginBlock + i) = .ok (place ws i) := by
  rw [Log.getPos, Nat.add_sub_cancel_left, h.readIndex hi]
  rfl

theorem Log.Stored.unpackHeader : unpackHeader s.log (place ws i) = some w.header := by
  obtain ⟨a, rest, hlog, ha⟩ := h.bytes hi
  rw [hlog, ← ha]
  exact unpackHeader_append w.header a _

theorem Log.Stored.readHeader (assertVersion : Bool) :
    readHeader s.log (place ws i) assertVersion = .ok w.header := by
  rw [StateHistory.readHeader, h.unpackHeader hi]
  exact eosAssert_bind_ok_iff.mpr ⟨fun _ => h.supported w (mem_of_getElem? hi), rfl⟩

/-- Every entry is read back. -/
theorem Log.Stored.getEntry :
    s.getEntry (s.beginBlock + i) = .ok (w.header, place ws i + headerSerialSize) := by
  have hlt := (List.getElem?_eq_some_iff.mp hi).1
  have hrange := h.range
  rw [Log.getEntry, eosAssert_bind_ok_iff, h.getPos hi]
  refine ⟨⟨by omega, by omega⟩, ?_⟩
  show (StateHistory.readHeader s.log (place ws i) >>= fun _ => _) = _
  rw [h.readHeader hi]
  rfl

theorem Log.Stored.payload :
    readAt s.log (place ws i + headerSerialSize) w.header.payloadSize.toNat = some w.payload := by
  obtain ⟨a, rest, hlog, ha⟩ := h.bytes hi
  have hpos : place ws i + headerSerialSize = (a ++ w.header.pack).length := by
    rw [length_append, ha, w.header.length_pack]
  rw [hlog, hpos, ← append_assoc, ← h.sizes w (mem_of_getElem? hi)]
  exact readAt_append _ _ _

end

/-! ## One call -/

/-- Cutting the log off keeps the entries in front of the block. -/
theorem Log.Stored.truncate (h : s.Stored ws) {blockNum : Nat} (hb : blockNum < s.endBlock) :
    ∃ s', s.truncate blockNum = .ok s' ∧ s'.Stored (ws.take (blockNum - s.beginBlock)) := by
  have hrange := h.range
  by_cases hle : blockNum ≤ s.beginBlock
  · refine ⟨_, if_pos hle, ?_⟩
    rw [Nat.sub_eq_zero_of_le hle, take_zero]
    exact ⟨rfl, rfl, Nat.two_pow_pos 63, nofun, rfl, Nat.two_pow_pos 32, fun _ => rfl, nofun,
      nofun, nofun⟩
  · obtain ⟨k, hk⟩ : ∃ k, blockNum = s.beginBlock + k := ⟨blockNum - s.beginBlock, by omega⟩
    have hlt : k < ws.length := by omega
    have hget : ws[k]? = some ws[k] := List.getElem?_eq_getElem hlt
    have hplace := h.place_le hget
    refine ⟨{ s with
        log := resize s.log (place ws k)
        index := resize s.index (8 * (blockNum - s.beginBlock))
        endBlock := blockNum }, ?_, ?_⟩
    · rw [Log.truncate, if_neg hle]
      conv_lhs => rw [hk, h.getPos hget]
      rw [hk]
      rfl
    · have hsub : blockNum - s.beginBlock = k := by omega
      rw [hsub]
      have hindex : 8 * k ≤ s.index.length := by
        rw [h.index, length_indexBytes, length_positions, length_map]
        omega
      constructor
      case log =>
        show resize s.log (place ws k) = _
        rw [resize_of_le (by omega), h.log, place, take_logBytes, map_take]
      case index =>
        show resize s.index (8 * k) = _
        rw [resize_of_le hindex, h.index, take_indexBytes, ← positions_take, map_take]
      case size =>
        show (resize s.log (place ws k)).length < _
        have hsize := h.size
        rw [resize_of_le (by omega), length_take]
        omega
      case nums =>
        intro i w hi
        rw [List.getElem?_take] at hi
        split at hi
        · exact h.nums hi
        · cases hi
      case range =>
        show blockNum = s.beginBlock + (ws.take k).length
        rw [length_take]
        omega
      case fits => exact Nat.lt_trans hb h.fits
      case empty =>
        intro hempty
        rw [take_eq_nil_iff] at hempty
        rcases hempty with hzero | hnil
        · omega
        · rw [hnil] at hlt
          cases hlt
      case sizes =>
        intro w hw
        exact h.sizes w (mem_of_mem_take hw)
      case supported =>
        intro w hw
        exact h.supported w (mem_of_mem_take hw)
      case linked =>
        intro i w w' hi hi'
        rw [List.getElem?_take] at hi hi'
        split at hi
        · split at hi'
          · exact h.linked hi hi'
          · cases hi'
        · cases hi

theorem getElem?_snoc {e : Write} (h : (ws ++ [w])[i]? = some e) :
    ws[i]? = some e ∨ i = ws.length ∧ e = w := by
  rw [List.getElem?_append] at h
  split at h
  · exact .inl h
  · rw [List.getElem?_singleton] at h
    split at h
    · exact .inr ⟨by omega, (Option.some.inj h).symm⟩
    · cases h

/-- An entry that follows on the last is added. -/
theorem Log.Stored.addEntry (h : s.Stored ws) (hsupported : w.header.supported)
    (hnum : w.num < 2 ^ 32 - 1) (hnext : ws ≠ [] → w.num = s.endBlock)
    (hprev : ∀ {prev}, ws.getLast? = some prev → w.prevId = prev.header.blockId) {s' : Log}
    (hs : s.addEntry w.header w.payload = .ok s') :
    s'.Stored (ws ++ [w]) ∧ s'.lastBlockId = w.header.blockId := by
  obtain ⟨log1, hlog1, hs⟩ := except_bind_ok hs
  obtain ⟨hlength, hs⟩ := eosAssert_bind_ok_iff.mp hs
  obtain ⟨log2, hlog2, hs⟩ := except_bind_ok hs
  obtain ⟨index, hindex, hs⟩ := except_bind_ok hs
  obtain ⟨rfl, hsize1⟩ := extend_some (fromFile_ok hlog1)
  obtain ⟨rfl, hsize2⟩ := extend_some (fromFile_ok hlog2)
  obtain ⟨rfl, -⟩ := extend_some (fromFile_ok hindex)
  obtain rfl := Except.ok.inj hs
  have hpayload : w.payload.length = w.header.payloadSize.toNat := by
    have hlt := w.header.payloadSize.toNat_lt
    rw [length_append, length_append, w.header.length_pack] at hlength hsize1
    rw [headerSerialSize] at hlength hsize1
    omega
  have hrange := h.range
  have hbegin : (if s.beginBlock = s.endBlock then w.num else s.beginBlock) + ws.length =
    w.num := by
    split
    · next heq =>
      omega
    · next hne =>
      rw [hnext (by rintro rfl; exact hne (by rw [hrange]; rfl))]
      omega
  have hkept : ∀ {i : Nat} {e : Write}, ws[i]? = some e →
      (if s.beginBlock = s.endBlock then w.num else s.beginBlock) = s.beginBlock := by
    intro i e hi
    have hlt := (List.getElem?_eq_some_iff.mp hi).1
    rw [if_neg (by omega)]
  have hentries : (ws ++ [w]).map Write.entry = ws.map Write.entry ++ [w.entry] :=
    map_append
  refine ⟨?_, rfl⟩
  constructor
  case log =>
    show s.log ++ (w.header.pack ++ w.payload) ++ leBytes 8 s.log.length = _
    rw [hentries, logBytes_append, logBytes_singleton, ← h.log, Nat.zero_add, Write.entry]
    simp only [append_assoc]
  case index =>
    show s.index ++ leBytes 8 s.log.length = _
    rw [hentries, positions_append, indexBytes_append, ← h.index, ← h.log, Nat.zero_add, positions,
      positions, indexBytes_cons]
    rfl
  case size => exact hsize2
  case nums =>
    intro i e hi
    show e.num = (if s.beginBlock = s.endBlock then w.num else s.beginBlock) + i
    rcases getElem?_snoc hi with hi | ⟨rfl, rfl⟩
    · rw [hkept hi]
      exact h.nums hi
    · exact hbegin.symm
  case range =>
    show (w.num + 1) % 2 ^ 32 = (if s.beginBlock = s.endBlock then w.num else s.beginBlock) + _
    rw [length_append, length_singleton, Nat.mod_eq_of_lt (by omega)]
    omega
  case fits => exact Nat.mod_lt _ (Nat.two_pow_pos 32)
  case empty =>
    intro hempty
    cases (append_eq_nil_iff.mp hempty).2
  case sizes => exact forall_mem_append.mpr ⟨h.sizes, forall_mem_singleton.mpr hpayload⟩
  case supported => exact forall_mem_append.mpr ⟨h.supported, forall_mem_singleton.mpr hsupported⟩
  case linked =>
    intro i e e' hi hi'
    rcases getElem?_snoc hi with he | ⟨rfl, rfl⟩
    · rcases getElem?_snoc hi' with he' | ⟨hlast, rfl⟩
      · exact h.linked he he'
      · refine hprev ?_
        rw [List.getLast?_eq_getElem?, ← hlast]
        exact he
    · rw [List.getElem?_eq_none (by rw [length_append]; exact Nat.le_refl _)] at hi'
      cases hi'

/-- The files hold the entries, and the log knows the last of them. -/
structure Log.Holds (s : Log) (ws : List Write) : Prop extends s.Stored ws where
  last : s.lastBlockId = (ws.getLast?.map fun w => w.header.blockId).getD .zero

/-- The previous id of a block that goes on the entries before it is the id of
    the last of them. -/
theorem Log.Holds.checkPrevious (h : s.Holds ws)
    (hle : s.beginBlock = s.endBlock ∨ w.num ≤ s.endBlock)
    (hcheck : s.checkPrevious w.num w.prevId = .ok ()) {prev : Write}
    (hprev : (ws.take (w.num - s.beginBlock)).getLast? = some prev) :
    w.prevId = prev.header.blockId := by
  have hrange := h.range
  have hne : ws.take (w.num - s.beginBlock) ≠ [] := by
    rintro hnil
    rw [hnil] at hprev
    cases hprev
  obtain ⟨hpos, hws⟩ : w.num - s.beginBlock ≠ 0 ∧ ws ≠ [] := by
    rwa [Ne, take_eq_nil_iff, not_or] at hne
  have hlength := length_pos_iff.mpr hws
  have hguard : s.beginBlock ≠ s.endBlock ∧ s.beginBlock < w.num := ⟨by omega, by omega⟩
  rw [Log.checkPrevious, if_pos hguard] at hcheck
  rw [List.getLast?_eq_getElem?, length_take, List.getElem?_take] at hprev
  by_cases hend : w.num = s.endBlock
  · rw [if_pos hend] at hcheck
    rw [if_pos (by omega), show min (w.num - s.beginBlock) ws.length = ws.length by omega,
      ← List.getLast?_eq_getElem?] at hprev
    rw [eosAssert_ok hcheck, h.last, hprev]
    rfl
  · rw [if_neg hend] at hcheck
    obtain ⟨k, hk⟩ : ∃ k, w.num = s.beginBlock + (k + 1) := ⟨w.num - s.beginBlock - 1, by omega⟩
    rw [if_pos (by omega),
      show min (w.num - s.beginBlock) ws.length - 1 = k by omega] at hprev
    rw [hk, ← Nat.add_assoc, Nat.add_sub_cancel, h.getEntry hprev] at hcheck
    exact eosAssert_ok hcheck

/-- A call of `write_entry` keeps the entries in front of the block and adds
    its own. -/
theorem Log.Holds.write (h : s.Holds ws) (hsupported : w.header.supported)
    (hnum : w.num < 2 ^ 32 - 1) {s' : Log} (hs : s.write w = .ok s') :
    s'.Holds (ws.take (w.num - s.beginBlock) ++ [w]) := by
  obtain ⟨hle, hs⟩ := eosAssert_bind_ok_iff.mp hs
  obtain ⟨_, hcheck, hs⟩ := except_bind_ok hs
  obtain ⟨s1, hs1, hs⟩ := except_bind_ok hs
  have hle : s.beginBlock = s.endBlock ∨ w.num ≤ s.endBlock := hle
  have hrange := h.range
  -- the log between the cut and the new entry
  have hstored : s1.Stored (ws.take (w.num - s.beginBlock)) := by
    split at hs1
    · next hlt =>
      obtain ⟨s2, hs2, hstored⟩ := h.truncate hlt
      cases hs1.symm.trans hs2
      exact hstored
    · next hge =>
      have hge : s.endBlock ≤ w.num := Nat.le_of_not_lt hge
      cases hs1
      rw [take_of_length_le (by omega)]
      exact h.toStored
  have hnext : ws.take (w.num - s.beginBlock) ≠ [] → w.num = s1.endBlock := by
    intro hne
    obtain ⟨hpos, hws⟩ : w.num - s.beginBlock ≠ 0 ∧ ws ≠ [] := by
      rwa [Ne, take_eq_nil_iff, not_or] at hne
    have hlength := length_pos_iff.mpr hws
    have hfirst : ws[0]? = some ws[0] := List.getElem?_eq_getElem hlength
    have hold := h.nums hfirst
    have hnew := hstored.nums (i := 0) (w := ws[0]) (by
      rw [List.getElem?_take, if_pos (Nat.pos_of_ne_zero hpos)]
      exact hfirst)
    rw [hstored.range, length_take]
    omega
  obtain ⟨hadded, hlast⟩ := hstored.addEntry hsupported hnum hnext
    (fun hprev => h.checkPrevious hle hcheck hprev) hs
  refine ⟨hadded, ?_⟩
  rw [hlast, List.getLast?_append]
  rfl

/-! ## Opening the files again -/

/-- The last entry of the log. -/
theorem Log.Stored.getLastBlock (h : s.Stored (ws ++ [w])) {lastBlockId : BlockId} :
    Log.getLastBlock { log := s.log, beginBlock := s.beginBlock, lastBlockId } s.log.length =
      .ok (some { s with index := [], lastBlockId := w.header.blockId }) := by
  have hi : (ws ++ [w])[ws.length]? = some w := List.getElem?_concat_length
  have hplace : place (ws ++ [w]) ws.length = (logBytes 0 (ws.map Write.entry)).length := by
    rw [place, map_append, ← length_map Write.entry, take_left]
  have hlog : s.log = logBytes 0 (ws.map Write.entry) ++ w.entry ++
      (leBytes 8 (place (ws ++ [w]) ws.length) ++ []) := by
    rw [h.log, map_append, map_singleton, logBytes_append, logBytes_singleton, hplace,
      Nat.zero_add, append_assoc, append_nil]
  have hlength : s.log.length = place (ws ++ [w]) ws.length + headerSerialSize +
      w.header.payloadSize.toNat + 8 := by
    rw [hlog, hplace, ← h.sizes w (mem_append_right _ (mem_singleton_self w)), Write.entry]
    simp only [length_append, length_leBytes, w.header.length_pack, append_nil]
    omega
  have hsize := h.size
  have hsuffix : readLE 8 s.log (s.log.length - 8) = some (place (ws ++ [w]) ws.length) := by
    have hpos : s.log.length - 8 = (logBytes 0 (ws.map Write.entry) ++ w.entry).length := by
      rw [hlog]
      simp only [length_append, length_leBytes, append_nil]
      omega
    exact readLE_of_eq hlog hpos (by omega)
  have hend : (w.header.blockId.num + 1) % 2 ^ 32 = s.endBlock := by
    have hnum : w.header.blockId.num = s.beginBlock + ws.length := h.nums hi
    have hrange := h.range
    have hfits := h.fits
    rw [length_append, length_singleton] at hrange
    rw [hnum, Nat.mod_eq_of_lt (by omega)]
    omega
  have hrange := h.range
  rw [length_append, length_singleton] at hrange
  rw [Log.getLastBlock, hsuffix]
  show (if _ then _ else _) = _
  rw [if_neg (by rw [hlength] at hsize ⊢; omega)]
  rw [h.readHeader hi false]
  show (if _ then _ else _) = _
  rw [if_neg (by
    rintro (hnot | hne)
    · exact hnot (h.supported w (mem_append_right _ (mem_singleton_self w)))
    · rw [← hlength, Nat.mod_eq_of_lt (by omega)] at hne
      exact hne rfl)]
  dsimp only
  rw [hend, if_neg (by omega)]
  rfl

/-- The files alone give the log back. -/
theorem Log.Holds.openFiles (h : s.Holds ws) : openFiles s.log s.index = .ok s := by
  have hindex : s.index.length = 8 * ws.length := by
    rw [h.index, length_indexBytes, length_positions, length_map]
  have hrange := h.range
  have hfits := h.fits
  have hopen : ∀ {s1 : Log}, openLog s.log = .ok s1 → s1 = { s with index := [] } →
      StateHistory.openFiles s.log s.index = .ok s := by
    rintro s1 hlog rfl
    rw [StateHistory.openFiles, hlog]
    exact if_pos (by rw [hindex]; dsimp only; omega)
  rcases eq_nil_or_concat' ws with rfl | ⟨init, w, rfl⟩
  · have hlog := h.log
    have hlast := h.last
    have hbegin := h.empty rfl
    have hend : s.endBlock = 0 := by rw [hrange, hbegin]; rfl
    refine hopen (show openLog s.log = .ok {} by rw [hlog]; rfl) ?_
    rw [hlog, hbegin, hend, hlast]
    rfl
  · obtain ⟨first, hfirst⟩ : ∃ first, (init ++ [w])[0]? = some first :=
      ⟨_, List.getElem?_eq_getElem (by rw [length_append]; exact Nat.succ_pos _)⟩
    have hplace := h.place_le hfirst
    have hheader : readHeader s.log 0 false = .ok first.header := h.readHeader hfirst false
    have hbegin : first.header.blockId.num = s.beginBlock := h.nums hfirst
    have hsize := h.size
    have hpayload := h.sizes first (mem_of_getElem? hfirst)
    have hlast : s.lastBlockId = w.header.blockId := by
      rw [h.last, List.getLast?_concat]
      rfl
    refine hopen (show openLog s.log = .ok { s with index := [] } from ?_) rfl
    rw [openLog, if_pos (by omega), hheader]
    refine eosAssert_bind_ok_iff.mpr ⟨⟨h.supported first (mem_of_getElem? hfirst), ?_⟩, ?_⟩
    · rw [Nat.mod_eq_of_lt (by omega)]
      omega
    · rw [hbegin]
      dsimp only
      rw [h.getLastBlock, hlast]
      rfl

end Stored

/-! ## Whole runs -/

/-- The last call for a block. -/
def lastWritten (writes : List Write) (b : Nat) : Option Write :=
  writes.reverse.find? fun w => w.num = b

theorem lastWritten_snoc (writes : List Write) (w : Write) (b : Nat) :
    lastWritten (writes ++ [w]) b = if w.num = b then some w else lastWritten writes b := by
  rw [lastWritten, reverse_append, reverse_singleton, singleton_append, List.find?_cons]
  by_cases h : w.num = b
  · rw [if_pos h, decide_eq_true h]
  · rw [if_neg h, decide_eq_false h]
    rfl

theorem empty_holds : ({} : Log).Holds [] :=
  ⟨⟨rfl, rfl, Nat.two_pow_pos 63, nofun, rfl, Nat.two_pow_pos 32, fun _ => rfl, nofun, nofun,
    nofun⟩, rfl⟩

/-- After any calls the log holds entries that are each the last written for
    their block. -/
theorem run_holds (writes : List Write)
    (hwrites : ∀ w ∈ writes, w.header.supported ∧ w.num < 2 ^ 32 - 1) :
    ∀ {s : Log}, writes.foldlM Log.write {} = .ok s →
      ∃ ws, s.Holds ws ∧ ∀ w ∈ ws, lastWritten writes w.num = some w := by
  induction writes using List.reverseRecOn with
  | nil =>
    intro s hs
    cases hs
    exact ⟨[], empty_holds, nofun⟩
  | append_singleton writes w ih =>
    intro s' hs'
    rw [foldlM_append] at hs'
    obtain ⟨s, hs, hw⟩ := except_bind_ok hs'
    rw [foldlM_cons] at hw
    obtain ⟨s'', hw, hs''⟩ := except_bind_ok hw
    cases hs''
    obtain ⟨ws, hholds, hlast⟩ := ih (fun w' hw' => hwrites w' (mem_append_left _ hw')) hs
    obtain ⟨hsupported, hnum⟩ := hwrites w (mem_append_right _ (mem_singleton_self w))
    refine ⟨_, hholds.write hsupported hnum hw, ?_⟩
    intro e he
    rw [lastWritten_snoc]
    rcases mem_append.mp he with he | he
    · -- an entry in front of the block has a smaller number
      obtain ⟨i, hi, rfl⟩ := mem_take_iff_getElem.mp he
      have hnum := hholds.nums (List.getElem?_eq_getElem (by omega : i < ws.length))
      rw [if_neg (by omega)]
      exact hlast _ (getElem_mem _)
    · rw [mem_singleton.mp he, if_pos rfl]

/-- What the log says of a block: the call that last wrote its entry, the
    position in the index, the entry with its position in the log, and what
    `get_entry` finds. -/
structure Log.Entry (s : Log) (writes : List Write) (b : Nat) (w : Write) (pos : Nat) : Prop where
  written : lastWritten writes b = some w
  index : readLE 8 s.index (8 * (b - s.beginBlock)) = some pos
  log : readAt s.log pos (w.header.pack ++ (w.payload ++ leBytes 8 pos)).length =
    some (w.header.pack ++ (w.payload ++ leBytes 8 pos))
  header : s.getEntry b = .ok (w.header, pos + headerSerialSize)
  payload : readAt s.log (pos + headerSerialSize) w.header.payloadSize.toNat = some w.payload

theorem Log.Holds.entry {s : Log} {ws writes : List Write} (h : s.Holds ws)
    (hlast : ∀ w ∈ ws, lastWritten writes w.num = some w) {i : Nat} {w : Write}
    (hi : ws[i]? = some w) : s.Entry writes (s.beginBlock + i) w (place ws i) := by
  constructor
  case written =>
    rw [← h.nums hi]
    exact hlast w (mem_of_getElem? hi)
  case index =>
    rw [Nat.add_sub_cancel_left]
    exact h.readIndex hi
  case log =>
    obtain ⟨a, rest, hlog, ha⟩ := h.bytes hi
    have hsplit : s.log = a ++
      (w.header.pack ++ (w.payload ++ leBytes 8 (place ws i)) ++ rest) := by
      rw [hlog]
      simp only [append_assoc]
    rw [hsplit]
    conv_lhs => rw [← ha]
    rw [← ha]
    exact readAt_append _ _ _
  case header => exact h.getEntry hi
  case payload => exact h.payload hi

/-- The state history log, for entries with the magic number that the log
    reads and with block numbers below the last.  After any calls of
    `write_entry` that return, every block of the range has the entry that was
    last written for it, at the position that the index has; the previous id
    of each is the id of the entry before; the index has nothing else; and the
    files, opened again, give the same log. -/
theorem history_kept (writes : List Write)
    (hwrites : ∀ w ∈ writes, w.header.supported ∧ w.num < 2 ^ 32 - 1) {s : Log}
    (hs : writes.foldlM Log.write {} = .ok s) :
    (∀ b, s.beginBlock ≤ b → b < s.endBlock → ∃ w pos, s.Entry writes b w pos) ∧
    (∀ b, s.beginBlock ≤ b → b + 1 < s.endBlock → ∀ w w', lastWritten writes b = some w →
      lastWritten writes (b + 1) = some w' → w'.prevId = w.header.blockId) ∧
    s.index.length = 8 * (s.endBlock - s.beginBlock) ∧
    openFiles s.log s.index = .ok s := by
  obtain ⟨ws, hholds, hlast⟩ := run_holds writes hwrites hs
  have hrange := hholds.range
  have hget : ∀ i, i < ws.length → ∃ w, ws[i]? = some w := fun i hi =>
    ⟨_, List.getElem?_eq_getElem hi⟩
  refine ⟨?_, ?_, ?_, hholds.openFiles⟩
  · intro b hb hlt
    obtain ⟨i, rfl⟩ := Nat.exists_eq_add_of_le hb
    obtain ⟨w, hw⟩ := hget i (by omega)
    exact ⟨w, place ws i, hholds.entry hlast hw⟩
  · intro b hb hlt w w' hw hw'
    obtain ⟨i, rfl⟩ := Nat.exists_eq_add_of_le hb
    obtain ⟨e, he⟩ := hget i (by omega)
    obtain ⟨e', he'⟩ := hget (i + 1) (by omega)
    cases (hholds.entry hlast he).written.symm.trans hw
    cases (hholds.entry hlast he').written.symm.trans hw'
    exact hholds.linked he he'
  · rw [hholds.index, length_indexBytes, length_positions, length_map]
    omega

/-- The id of a block with a number below 256, and otherwise the byte `fork`. -/
def smallId (num fork : UInt8) : BlockId :=
  ⟨[0, 0, 0, num] ++ List.replicate 28 fork, rfl⟩

/-- Three blocks, then the second of another fork. -/
def forked : List Write :=
  [⟨{ blockId := smallId 1 0, payloadSize := 1 }, .zero, [7]⟩,
   ⟨{ blockId := smallId 2 0, payloadSize := 0 }, smallId 1 0, []⟩,
   ⟨{ blockId := smallId 3 0, payloadSize := 1 }, smallId 2 0, [8]⟩,
   ⟨{ blockId := smallId 2 1, payloadSize := 2 }, smallId 1 0, [8, 9]⟩]

theorem history_kept_forked : ∃ s : Log, forked.foldlM Log.write {} = .ok s ∧
    (s.beginBlock = 1 ∧ s.endBlock = 3) ∧
    (∀ b, s.beginBlock ≤ b → b < s.endBlock → ∃ w pos, s.Entry forked b w pos) ∧
    (∀ b, s.beginBlock ≤ b → b + 1 < s.endBlock → ∀ w w', lastWritten forked b = some w →
      lastWritten forked (b + 1) = some w' → w'.prevId = w.header.blockId) ∧
    s.index.length = 8 * (s.endBlock - s.beginBlock) ∧
    openFiles s.log s.index = .ok s := by
  have hrange : (forked.foldlM Log.write {}).toOption.map (fun s => (s.beginBlock, s.endBlock)) =
      some (1, 3) := by decide +kernel
  cases hrun : forked.foldlM Log.write {} with
  | error e =>
    rw [hrun] at hrange
    cases hrange
  | ok s =>
    rw [hrun] at hrange
    obtain ⟨hbegin, hend⟩ := Prod.mk.inj (Option.some.inj hrange)
    exact ⟨s, rfl, ⟨hbegin, hend⟩, history_kept forked (by decide) hrun⟩

/-- An entry with another magic number is written, but it is not read, and the
    files cannot be opened again. -/
theorem other_magic_unread : ∃ s : Log,
    [(⟨{ magic := 0, blockId := smallId 1 0 }, .zero, []⟩ : Write)].foldlM Log.write {} = .ok s ∧
      s.beginBlock = 1 ∧ s.endBlock = 2 ∧
      s.getEntry 1 = .error ⟨.plugin, "corrupt $\x7bname\x7d.log (0)"⟩ ∧
      openFiles s.log s.index = .error ⟨.plugin, "corrupt $\x7bname\x7d.log (1)"⟩ :=
  ⟨_, rfl, rfl, rfl, rfl, rfl⟩

/-- Behind the last block number the range is empty, and the files cannot be
    opened again. -/
theorem last_number_unread : ∃ s : Log,
    [(⟨{ blockId := ⟨List.replicate 32 255, rfl⟩ }, .zero, []⟩ : Write)].foldlM Log.write {} =
        .ok s ∧
      s.beginBlock = 2 ^ 32 - 1 ∧ s.endBlock = 0 ∧
      openFiles s.log s.index = .error ⟨.plugin, "recover $\x7bname\x7d.log failed"⟩ :=
  ⟨_, rfl, rfl, rfl, rfl⟩

end StateHistory
