import EosForce.ChainTypesProofs
import EosForce.OrderStatProofs

/-! # `block_header_state`: one step of the header chain

    The header state carries everything that decides irreversibility: the
    active and the pending producer schedule, the counters of missing
    confirmations of the most recent blocks, and two maps from producers to
    block numbers.  `next` builds the pending state of the following block
    from a timestamp and a number of confirmed predecessors, `finishNext`
    checks a signed header against it.  Signatures and the block merkle tree
    play no part in these decisions and are left out. -/

namespace HeaderState

open ChainTypes OrderStat

/-! ## Data -/

structure KeyWeight where
  key : PublicKey
  weight : Nat
deriving DecidableEq, Repr

/-- `block_signing_authority_v0`. -/
structure BlockSigningAuthority where
  threshold : Nat := 0
  keys : List KeyWeight := []
deriving DecidableEq, Repr

structure ProducerAuthority where
  producerName : Name
  authority : BlockSigningAuthority
deriving DecidableEq, Repr

structure ProducerAuthoritySchedule where
  version : Nat := 0
  producers : List ProducerAuthority := []
deriving DecidableEq, Repr

/-- `legacy::producer_key`. -/
structure ProducerKey where
  producerName : Name
  blockSigningKey : PublicKey
deriving DecidableEq, Repr

/-- `legacy::producer_schedule_type`. -/
structure LegacySchedule where
  version : Nat := 0
  producers : List ProducerKey := []
deriving DecidableEq, Repr

/-- The up-converting constructor of `producer_authority_schedule`. -/
def LegacySchedule.upgrade (old : LegacySchedule) : ProducerAuthoritySchedule where
  version := old.version
  producers := old.producers.map fun p =>
    ⟨p.producerName, ⟨1, [⟨p.blockSigningKey, 1⟩]⟩⟩

/-- `detail::schedule_info`. -/
structure ScheduleInfo where
  scheduleLibNum : Nat := 0
  scheduleHash : Digest := 0
  schedule : ProducerAuthoritySchedule := {}
deriving DecidableEq, Repr

/-- An unpacked header extension; `unsupported` stands for every id that
    `block_header_extension_types` does not list. -/
inductive HeaderExtension where
  | protocolFeatureActivation (protocolFeatures : List Digest)
  | producerScheduleChange (schedule : ProducerAuthoritySchedule)
  | unsupported (id : Nat)
deriving DecidableEq, Repr

/-- `extension_id()`. -/
def HeaderExtension.id : HeaderExtension → Nat
  | .protocolFeatureActivation _ => 0
  | .producerScheduleChange _ => 1
  | .unsupported i => i

/-- `signed_block_header`, less its signature. -/
structure BlockHeader where
  timestamp : Nat := 0
  producer : Name := default
  confirmed : Nat := 1
  previous : BlockId := 0
  transactionMroot : Digest := 0
  actionMroot : Digest := 0
  scheduleVersion : Nat := 0
  newProducers : Option LegacySchedule := none
  headerExtensions : List HeaderExtension := []
deriving DecidableEq, Repr

/-- `flat_map<account_name, uint32_t>`. -/
abbrev ProducerMap := AList (fun _ : Name => Nat)

/-- `detail::block_header_state_common`. -/
structure BlockHeaderStateCommon where
  blockNum : Nat := 0
  dposProposedIrreversibleBlocknum : Nat := 0
  dposIrreversibleBlocknum : Nat := 0
  activeSchedule : ProducerAuthoritySchedule := {}
  producerToLastProduced : ProducerMap := ∅
  producerToLastImpliedIrb : ProducerMap := ∅
  validBlockSigningAuthority : BlockSigningAuthority := {}
  confirmCount : List Nat := []

structure PendingBlockHeaderState extends BlockHeaderStateCommon where
  prevActivatedProtocolFeatures : List Digest
  prevPendingSchedule : ScheduleInfo
  wasPendingPromoted : Bool := false
  previous : BlockId
  producer : Name
  timestamp : Nat
  activeScheduleVersion : Nat
  confirmed : Nat

structure BlockHeaderState extends BlockHeaderStateCommon where
  id : BlockId := 0
  header : BlockHeader := {}
  pendingSchedule : ScheduleInfo := {}
  activatedProtocolFeatures : List Digest := []

/-! ## Constants of `config.hpp` -/

def producerRepetitions : Nat := 1
def maxProducers : Nat := 23
def maximumTrackedDposConfirmations : Nat := 1024

/-! ## The step -/

variable (s : BlockHeaderState)

/-- `get_scheduled_producer`; the remainder by zero that an empty schedule
    would take has no value. -/
def getScheduledProducer (slot : Nat) : Option ProducerAuthority :=
  let index := slot % (s.activeSchedule.producers.length * producerRepetitions)
  s.activeSchedule.producers[index / producerRepetitions]?

/-- `calc_dpos_last_irreversible`. -/
def calcDposLastIrreversible (producerOfNextBlock : Name) : Nat :=
  let blocknums := s.producerToLastImpliedIrb.entries.map fun i =>
    if i.1 = producerOfNextBlock then s.dposProposedIrreversibleBlocknum else i.2
  if blocknums.length = 0 then 0
  else nthElement blocknums ((blocknums.length - 1) / 3) 0

/-- `required_confs` for a block signed by a schedule of `n` producers. -/
def requiredConfs (n : Nat) : Nat := n * 2 / 3 + 1

/-- The counter of the new block is appended; at the tracking limit the
    oldest one makes room.  The counters are `uint8_t`. -/
def growConfirmCount (confirmCount : List Nat) (required : Nat) : List Nat :=
  if confirmCount.length < maximumTrackedDposConfirmations then
    confirmCount ++ [required % 2 ^ 8]
  else
    confirmCount.drop 1 ++ [required % 2 ^ 8]

/-- The `while` loop of `next`; the first argument is the loop's `i + 1`.
    It counts entries down from the newest one and stops at the first that
    reaches zero, which proposes its block and cuts the array behind it. -/
def confirmLoop (blockNum : Nat) :
    Nat → Nat → List Nat → Nat → List Nat × Nat
  | 0, _, confirmCount, proposed => (confirmCount, proposed)
  | _ + 1, 0, confirmCount, proposed => (confirmCount, proposed)
  | i + 1, blocksToConfirm + 1, confirmCount, proposed =>
    let confirmCount := confirmCount.set i ((confirmCount.getD i 0 + (2 ^ 8 - 1)) % 2 ^ 8)
    if confirmCount.getD i 0 = 0 then
      (confirmCount.drop (i + 1), subU32 blockNum (confirmCount.length - 1 - i))
    else confirmLoop blockNum i blocksToConfirm confirmCount proposed

/-- One of the two maps rebuilt at a promotion: the producers of the new
    schedule keep their entry, a newcomer is seeded with `seed` and the
    producer of the block gets `own`. -/
def rebuildMap (old : ProducerMap) (producers : List ProducerAuthority)
    (producer : Name) (own seed : Nat) : ProducerMap :=
  producers.foldl (fun m pro => m.insert pro.producerName
    (if pro.producerName = producer then own
     else (old.lookup pro.producerName).getD seed)) ∅

/-- The rebuilt map, entry by entry. -/
theorem rebuildMap_lookup (old : ProducerMap) (producers : List ProducerAuthority)
    (producer : Name) (own seed : Nat) (q : Name) :
    (rebuildMap old producers producer own seed).lookup q =
      if q ∈ producers.map (·.producerName) then
        some (if q = producer then own else (old.lookup q).getD seed)
      else none := by
  -- the fold overwrites any map it starts from
  suffices h : ∀ m : ProducerMap,
      (producers.foldl (fun m pro => m.insert pro.producerName
        (if pro.producerName = producer then own
         else (old.lookup pro.producerName).getD seed)) m).lookup q =
      if q ∈ producers.map (·.producerName) then
        some (if q = producer then own else (old.lookup q).getD seed)
      else m.lookup q by
    exact h ∅
  induction producers with
  | nil => intro m; rfl
  | cons pro rest ih =>
    intro m
    rw [List.foldl_cons, ih, List.map_cons]
    by_cases hmem : q ∈ rest.map (·.producerName)
    · rw [if_pos hmem, if_pos (List.mem_cons_of_mem _ hmem)]
    · rw [if_neg hmem]
      by_cases hq : q = pro.producerName
      · rw [if_pos (List.mem_cons.mpr (.inl hq)), hq, AList.lookup_insert]
      · rw [AList.lookup_insert_ne hq, if_neg (fun h => (List.mem_cons.mp h).elim hq hmem)]

/-- The slot of the next block. -/
def nextSlot (when' : Nat) : Except FcException Nat :=
  if when' ≠ 0 then do
    eosAssert (when' > s.header.timestamp) .blockValidate "next block must be in the future"
    pure when'
  else pure (addU32 s.header.timestamp 1)

/-- The `producer_double_confirm` check. -/
def checkDoubleConfirm (producer : Name) (numPrevBlocksToConfirm : Nat) : Except FcException Unit :=
  match s.producerToLastProduced.lookup producer with
  | some lastProduced =>
    eosAssert (lastProduced < subU32 (addU32 s.blockNum 1) numPrevBlocksToConfirm)
      .producerDoubleConfirm "producer $\x7bprod\x7d double-confirming known range"
  | none => .ok ()

/-- The state that `next` returns once its checks have passed. -/
def nextState (proauth : ProducerAuthority) (slot : Nat) (numPrevBlocksToConfirm : Nat) :
    PendingBlockHeaderState :=
  let blockNum := addU32 s.blockNum 1
  let grown := growConfirmCount s.confirmCount (requiredConfs s.activeSchedule.producers.length)
  let counted := confirmLoop blockNum grown.length (numPrevBlocksToConfirm + 1)
    grown s.dposProposedIrreversibleBlocknum
  let lib := calcDposLastIrreversible s proauth.producerName
  let promoted : Bool := s.pendingSchedule.schedule.producers.length ≠ 0 ∧
    lib ≥ s.pendingSchedule.scheduleLibNum
  { blockNum := blockNum
    dposProposedIrreversibleBlocknum := counted.2
    dposIrreversibleBlocknum := lib
    activeSchedule :=
      if promoted then s.pendingSchedule.schedule else s.activeSchedule
    producerToLastProduced :=
      (if promoted then
        rebuildMap s.producerToLastProduced s.pendingSchedule.schedule.producers
          proauth.producerName blockNum lib
      else s.producerToLastProduced).insert proauth.producerName blockNum
    producerToLastImpliedIrb :=
      if promoted then
        rebuildMap s.producerToLastImpliedIrb s.pendingSchedule.schedule.producers
          proauth.producerName s.dposProposedIrreversibleBlocknum lib
      else s.producerToLastImpliedIrb.insert proauth.producerName s.dposProposedIrreversibleBlocknum
    validBlockSigningAuthority := proauth.authority
    confirmCount := counted.1
    prevActivatedProtocolFeatures := s.activatedProtocolFeatures
    prevPendingSchedule := s.pendingSchedule
    wasPendingPromoted := promoted
    previous := s.id
    producer := proauth.producerName
    timestamp := slot
    activeScheduleVersion := s.activeSchedule.version
    confirmed := numPrevBlocksToConfirm }

/-- `block_header_state::next( when, num_prev_blocks_to_confirm )`. -/
def next (when' : Nat) (numPrevBlocksToConfirm : Nat) :
    Except FcException PendingBlockHeaderState := do
  let slot ← nextSlot s when'
  match getScheduledProducer s slot with
  | none => .error ⟨.undefinedBehaviour, "remainder by zero"⟩
  | some proauth =>
    checkDoubleConfirm s proauth.producerName numPrevBlocksToConfirm
    pure (nextState s proauth slot numPrevBlocksToConfirm)

/-! ## Checking a header against the pending state -/

/-- What `_finish_next` uses of the rest of the library: the digest of the
    `wtmsig_block_signatures` feature if the node knows it, the protocol
    feature validator, the two schedule hashes and the block id. -/
structure HeaderEnv where
  wtmsigDigest : Option Digest
  validator : Nat → List Digest → List Digest → Except FcException Unit
  legacyHash : LegacySchedule → Digest
  scheduleHash : ProducerAuthoritySchedule → Digest
  id : BlockHeader → BlockId

/-- `detail::is_builtin_activated` for `wtmsig_block_signatures`. -/
def wtmsigActivated (env : HeaderEnv) (activated : List Digest) : Bool :=
  match env.wtmsigDigest with
  | some d => activated.contains d
  | none => false

/-- `reflector_init` of an unpacked extension. -/
def checkUnpacked : HeaderExtension → Except FcException Unit
  | .protocolFeatureActivation fs => do
      eosAssert (0 < fs.length) .illFormedProtocolFeatureActivation
        "Protocol feature activation extension must have at least one protocol feature digest"
      eosAssert fs.Nodup .illFormedProtocolFeatureActivation
        "Protocol feature digest $\x7bd\x7d was repeated in the protocol feature activation extension"
  | .producerScheduleChange _ => .ok ()
  | .unsupported _ => .error ⟨.invalidBlockHeaderExtension,
      "Block header extension with id type $\x7bid\x7d is not supported"⟩

/-- The loop of `validate_and_extract_header_extensions`: ids ascend, every
    id is supported and none repeats. -/
def validateExtensions : Bool → Nat → List HeaderExtension → Except FcException Unit
  | _, _, [] => .ok ()
  | isFirst, lowerBound, e :: rest => do
      eosAssert (lowerBound ≤ e.id) .invalidBlockHeaderExtension
        "Block header extensions are not in the correct order (ascending id types required)"
      checkUnpacked e
      eosAssert (isFirst = true ∨ lowerBound < e.id) .invalidBlockHeaderExtension
        "Block header extension with id type $\x7bid\x7d is not allowed to repeat"
      validateExtensions false e.id rest

/-- `validate_and_extract_header_extensions`. -/
def validateAndExtractHeaderExtensions (h : BlockHeader) :
    Except FcException (List HeaderExtension) := do
  validateExtensions true 0 h.headerExtensions
  pure h.headerExtensions

/-- The schedule of a `producer_schedule_change_extension`, if there is one. -/
def scheduleChange : List HeaderExtension → Option ProducerAuthoritySchedule
  | [] => none
  | .producerScheduleChange s :: _ => some s
  | _ :: rest => scheduleChange rest

/-- The features of a `protocol_feature_activation`, if there is one. -/
def featureActivation : List HeaderExtension → Option (List Digest)
  | [] => none
  | .protocolFeatureActivation fs :: _ => some fs
  | _ :: rest => featureActivation rest

/-- The checks that `_finish_next` makes of a new schedule of either form. -/
def checkNewSchedule (p : PendingBlockHeaderState) (version : Nat) :
    Except FcException Unit := do
  eosAssert (p.wasPendingPromoted = false) .producerSchedule
    "cannot set pending producer schedule in the same block in which pending was promoted to active"
  eosAssert (version = addU32 p.activeSchedule.version 1) .producerSchedule
    "wrong producer schedule version specified"
  eosAssert (p.prevPendingSchedule.schedule.producers = []) .producerSchedule
    "cannot set new pending producers until last pending is confirmed"

/-- The legacy schedule in `new_producers`, up-converted, with its hash. -/
def headerSchedule (env : HeaderEnv) (p : PendingBlockHeaderState)
    (h : BlockHeader) : Except FcException (Option (ProducerAuthoritySchedule × Digest)) :=
  match h.newProducers with
  | none => pure none
  | some newProducers => do
      eosAssert (wtmsigActivated env p.prevActivatedProtocolFeatures = false)
        .producerSchedule
        "Block header contains legacy producer schedule outdated by activation of WTMsig Block Signatures"
      checkNewSchedule p newProducers.version
      pure (some (newProducers.upgrade, env.legacyHash newProducers))

/-- The new schedule that a header carries, with its hash: `new_producers`
    before and the header extension after `wtmsig_block_signatures`. -/
def extractNewSchedule (env : HeaderEnv) (p : PendingBlockHeaderState)
    (h : BlockHeader) (exts : List HeaderExtension) :
    Except FcException (Option (ProducerAuthoritySchedule × Digest)) := do
  let fromHeader ← headerSchedule env p h
  match scheduleChange exts with
  | none => pure fromHeader
  | some newSchedule => do
      eosAssert (wtmsigActivated env p.prevActivatedProtocolFeatures = true)
        .producerSchedule
        "Block header producer_schedule_change_extension before activation of WTMsig Block Signatures"
      checkNewSchedule p newSchedule.version
      pure (some (newSchedule, env.scheduleHash newSchedule))

variable {p : PendingBlockHeaderState}

/-- No new schedule comes with the block that promotes the pending one. -/
theorem checkNewSchedule_ok {version : Nat} {u : Unit} (h : checkNewSchedule p version = .ok u) :
    p.wasPendingPromoted = false := by
  obtain ⟨_, hp, -⟩ := except_bind_ok h
  exact eosAssert_ok hp

theorem extractNewSchedule_promoted {env : HeaderEnv} {h : BlockHeader}
    {exts : List HeaderExtension} {ns : Option (ProducerAuthoritySchedule × Digest)}
    (hns : extractNewSchedule env p h exts = .ok ns) (hp : p.wasPendingPromoted = true) :
    ns = none := by
  have hno : ∀ version u, checkNewSchedule p version ≠ .ok u := by
    intro version u hc
    rw [checkNewSchedule_ok hc] at hp
    exact nomatch hp
  obtain ⟨fromHeader, hheader, hns⟩ := except_bind_ok hns
  have hfrom : fromHeader = none := by
    unfold headerSchedule at hheader
    cases hnp : h.newProducers with
    | none =>
      rw [hnp] at hheader
      exact (Except.ok.inj hheader).symm
    | some np =>
      rw [hnp] at hheader
      obtain ⟨_, -, hheader⟩ := except_bind_ok hheader
      obtain ⟨_, hc, -⟩ := except_bind_ok hheader
      exact absurd hc (hno _ _)
  cases hsc : scheduleChange exts with
  | none =>
    rw [hsc] at hns
    rw [← Except.ok.inj hns]
    exact hfrom
  | some sched =>
    rw [hsc] at hns
    obtain ⟨_, -, hns⟩ := except_bind_ok hns
    obtain ⟨_, hc, -⟩ := except_bind_ok hns
    exact absurd hc (hno _ _)

variable (env : HeaderEnv)

/-- The activation set of the new block. -/
def extractActivations (p : PendingBlockHeaderState) (exts : List HeaderExtension) :
    Except FcException (List Digest) :=
  match featureActivation exts with
  | none => pure p.prevActivatedProtocolFeatures
  | some fs => do
      env.validator p.timestamp p.prevActivatedProtocolFeatures fs
      eosAssert (∀ f ∈ fs, f ∉ p.prevActivatedProtocolFeatures)
        .invalidBlockHeaderExtension "duplication of protocol feature digests"
      pure (p.prevActivatedProtocolFeatures ++ fs)

/-- The pending schedule of the new block. -/
def nextPendingSchedule (p : PendingBlockHeaderState)
    (newSchedule : Option (ProducerAuthoritySchedule × Digest)) : ScheduleInfo :=
  match newSchedule with
  | some (schedule, hash) =>
    { scheduleLibNum := p.blockNum, scheduleHash := hash, schedule := schedule }
  | none =>
    { p.prevPendingSchedule with
      schedule :=
        if p.wasPendingPromoted then
          { version := p.prevPendingSchedule.schedule.version, producers := [] }
        else p.prevPendingSchedule.schedule }

theorem nextPendingSchedule_promoted (h : p.wasPendingPromoted = true) :
    (nextPendingSchedule p none).schedule.producers = [] := by
  simp [nextPendingSchedule, h]

theorem nextPendingSchedule_kept (h : p.wasPendingPromoted = false) :
    nextPendingSchedule p none = p.prevPendingSchedule := by
  simp [nextPendingSchedule, h]

/-- `_finish_next`. -/
def finishNext (p : PendingBlockHeaderState) (h : BlockHeader) :
    Except FcException BlockHeaderState := do
  eosAssert (h.timestamp = p.timestamp) .blockValidate "timestamp mismatch"
  eosAssert (h.previous = p.previous) .unlinkableBlock "previous mismatch"
  eosAssert (h.confirmed = p.confirmed) .blockValidate "confirmed mismatch"
  eosAssert (h.producer = p.producer) .wrongProducer "wrong producer specified"
  eosAssert (h.scheduleVersion = p.activeScheduleVersion) .producerSchedule
    "schedule_version in signed block is corrupted"
  let exts ← validateAndExtractHeaderExtensions h
  let newSchedule ← extractNewSchedule env p h exts
  let activated ← extractActivations env p exts
  pure { p.toBlockHeaderStateCommon with
    id := env.id h
    header := h
    pendingSchedule := nextPendingSchedule p newSchedule
    activatedProtocolFeatures := activated }

/-- `block_header_state::next( header )`: the template of the following block,
    and the header checked against it. -/
def nextHeader (s : BlockHeaderState) (h : BlockHeader) :
    Except FcException BlockHeaderState := do
  let p ← next s h.timestamp h.confirmed
  finishNext env p h

/-! ## Making a header -/

/-- A signing authority of the form that legacy schedules can express. -/
def downgradeKey (p : ProducerAuthority) : Except FcException ProducerKey :=
  match p.authority.keys with
  | [k] => do
      eosAssert (k.weight = p.authority.threshold) .producerSchedule
        "multisig block signing present before enabled!"
      pure ⟨p.producerName, k.key⟩
  | _ => .error ⟨.producerSchedule, "multisig block signing present before enabled!"⟩

/-- `pending_block_header_state::make_block_header`. -/
def makeBlockHeader (p : PendingBlockHeaderState) (transactionMroot actionMroot : Digest)
    (newProducers : Option ProducerAuthoritySchedule)
    (newProtocolFeatureActivations : List Digest) : Except FcException BlockHeader := do
  let features : List HeaderExtension :=
    if 0 < newProtocolFeatureActivations.length then
      [.protocolFeatureActivation newProtocolFeatureActivations]
    else []
  let h : BlockHeader :=
    { timestamp := p.timestamp
      producer := p.producer
      confirmed := p.confirmed
      previous := p.previous
      transactionMroot := transactionMroot
      actionMroot := actionMroot
      scheduleVersion := p.activeScheduleVersion
      headerExtensions := features }
  match newProducers with
  | none => pure h
  | some schedule =>
    if wtmsigActivated env p.prevActivatedProtocolFeatures then
      pure { h with headerExtensions := features ++ [.producerScheduleChange schedule] }
    else do
      let downgraded ← schedule.producers.mapM downgradeKey
      pure { h with newProducers := some ⟨schedule.version, downgraded⟩ }

/-- The header state that `initialize_blockchain_state` starts the chain
    with. -/
def genesisState (initialTimestamp : Nat) (initialProducerList : List ProducerKey)
    (chainId : Digest) : BlockHeaderState :=
  let initialSchedule : LegacySchedule := ⟨0, initialProducerList⟩
  let header : BlockHeader :=
    { timestamp := initialTimestamp, actionMroot := chainId }
  { blockNum := 1
    activeSchedule := initialSchedule.upgrade
    id := env.id header
    header := header
    pendingSchedule :=
      { scheduleLibNum := 0
        scheduleHash := env.legacyHash initialSchedule
        schedule := initialSchedule.upgrade } }

end HeaderState
