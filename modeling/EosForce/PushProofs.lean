import EosForce.ApplyContextProofs

/-! # Pushing transactions onto the pending block

    `push_transaction` and `push_scheduled_transaction` with their undo
    sessions.  A session that is neither squashed nor pushed takes the
    database back when it ends; the lists of the pending block are taken back
    by a restore point of their own. -/

namespace Push

open ChainTypes TrxTypes Effect Resource Database FeeRule TrxContext ApplyContext

/-! ## The pending block -/

/-- `transaction_metadata`. -/
structure TrxMetadata where
  trx : Transaction
  id : Digest
  implicit : Bool := false
  recoveredKeys : List PublicKey := []
  unprunableSize : Nat := 0
  prunableSize : Nat := 0

/-- `building_block`, the lists that transactions add to. -/
structure BuildingBlock where
  pendingTrxReceipts : List TransactionReceipt := []
  pendingTrxMetas : List TrxMetadata := []
  actions : List Executed := []

/-- The database with the pending block on it. -/
structure PipeState (σ : Type) where
  db : Db σ
  block : BuildingBlock

variable {σ : Type}

abbrev PipeM (σ : Type) := EStateM FcException (PipeState σ)

/-- `transaction_trace`, as far as the callers read it. -/
structure Trace where
  receipt : Option ReceiptHeader := none
  except : Option FcException := none
deriving DecidableEq, Repr

/-- `push_receipt`. -/
def receipt (trx : ReceiptTrx) (status : TrxStatus) (cpuUsageUs netUsage : Nat) :
    TransactionReceipt :=
  ⟨trx, status, cpuUsageUs % 2 ^ 32, netUsage / 8 % 2 ^ 32⟩

def pushReceipt (r : TransactionReceipt) : PipeM σ Unit :=
  modify fun s => { s with block :=
    { s.block with pendingTrxReceipts := s.block.pendingTrxReceipts ++ [r] } }

def pushActions (executed : List Executed) : PipeM σ Unit :=
  modify fun s => { s with block := { s.block with actions := s.block.actions ++ executed } }

def pushMeta (m : TrxMetadata) : PipeM σ Unit :=
  modify fun s => { s with block :=
    { s.block with pendingTrxMetas := s.block.pendingTrxMetas ++ [m] } }

def setDb (db : Db σ) : PipeM σ Unit := modify fun s => { s with db := db }

/-! ## Checks on entry -/

/-- `check_chainstatus`. -/
def checkChainstatus (t : Tables σ) : Except FcException Bool :=
  match t.chainStatus with
  | none => .error ⟨.forkDatabase, "get chainstatus fatal"⟩
  | some none => .error ⟨.forkDatabase, "get chainstatus fatal by no stat"⟩
  | some (some emergency) => .ok emergency

/-- The names that `check_action` lets pass in an emergency. -/
def emergencyNames : List Name := [N.setemergency, N.onblock, N.onfee, N.voteagefee]

/-- `check_action`. -/
def checkAction (t : Tables σ) (actions : List Action) : Except FcException Unit := do
  let chainStatus ← checkChainstatus t
  let trxSizeLimit := getNumConfigOnChain t Config.trxSizeLimit Config.defaultTrxSize
  actions.forM fun a => do
    eosAssert (a.data.length < (trxSizeLimit % 2 ^ 64).toNat) .invalidActionArgs
      "transaction size must less then trx_size_limit on chain"
    eosAssert (chainStatus = false ∨ a.name ∈ emergencyNames) .invalidActionArgs
      "chain is in emergency now !"

/-- The exceptions that reject the block and are not recorded in a trace. -/
def isBadBlock (e : FcException) : Bool :=
  decide (e.type = .disallowedTransactionExtensionsBadBlock ∨ e.type = .protocolFeatureBadBlock)

/-- `failure_is_subjective`. -/
def failureIsSubjective (e : FcException) : Bool :=
  decide (e.type ∈ [.subjectiveBlockProduction, .blockNetUsageExceeded,
    .greylistNetUsageExceeded, .blockCpuUsageExceeded, .greylistCpuUsageExceeded, .deadline,
    .leewayDeadline, .actorWhitelist, .actorBlacklist, .contractWhitelist, .contractBlacklist,
    .actionBlacklist, .keyBlacklist, .sigVariableSizeLimit])

/-- `scheduled_failure_is_subjective`. -/
def scheduledFailureIsSubjective (e : FcException) : Bool :=
  decide (e.type = .txCpuUsageExceeded) || failureIsSubjective e

/-! ## Input and implicit transactions -/

section Pushing

variable (env : Env σ)

/-- The header of a transaction that the controller makes itself. -/
def generatedHeader (actions : List Action) : Transaction :=
  if env.features.noDuplicateDeferredId then { actions := actions }
  else
    { expiration := (env.pendingBlockTime + 999999) / 1000000
      refBlockNum := env.refBlockNum
      refBlockPrefix := env.refBlockPrefix
      actions := actions }

/-- `get_on_fee_transaction`. -/
def getOnFeeTransaction (fee : Asset) (actor : Name) : Transaction :=
  generatedHeader env
    [{ account := N.eosio
       name := N.onfee
       authorization := [⟨actor, N.active⟩]
       data := env.packFee ⟨actor, fee, env.headProducer⟩ }]

/-- The metadata of a transaction that the controller makes itself. -/
def implicitMetadata (trx : Transaction) : TrxMetadata :=
  { trx := trx, id := env.trxId trx, implicit := true }

/-- What a caller of `push_transaction` passes along, and the clock while it
    runs. -/
structure Billing where
  deadline : Int := timePointMaximum
  billedCpuTimeUs : Nat := 0
  explicitBilledCpuTime : Bool := false
  clock : Clock := {}

variable (node : Node)

variable (m : TrxMetadata)

/-- The context that `push_transaction` starts. -/
def startContext (b : Billing) : Context :=
  { trx := m.trx
    id := m.id
    clock := b.clock
    leeway := if node.isProducingBlock then node.subjectiveCpuLeeway.getD 31000 else 31000
    deadline := b.deadline
    explicitBilledCpuTime := b.explicitBilledCpuTime
    billedCpuTimeUs := b.billedCpuTimeUs }

/-- `onfee_action` is open. -/
def onfeeOpen (t : Tables σ) : Prop :=
  isFuncHasOpen env.headBlockNum t Config.onfeeAction

instance (env : Env σ) (t : Tables σ) : Decidable (onfeeOpen env t) := by
  unfold onfeeOpen
  infer_instance

/-- How the fee of an input transaction is settled before it runs: the fee
    stated must cover what is required, or fee actions are prepared. -/
def settleFee : ExecM σ Unit := do
  let s ← get
  let trn := s.ctx.trx
  if onfeeOpen env s.db.tables then do
    let feeLimit ← raise (getFromExtensions env.unpackAsset trn feeLimitExtension)
    makeFeeAct (feeLimit.getD Asset.zero)
  else do
    let feeRequired ← raise (getRequiredFeeOfTrx s.db.tables trn)
    let short ← raise (trn.fee.lt feeRequired)
    require (short = false) .transaction "set tx fee failed: no enough fee in trx"
    let feeExt ← raise (trn.fee.sub feeRequired)
    makeLimitByContract feeExt

/-- Whether a replayed transaction is old enough not to be recorded. -/
def skipRecording (trx : Transaction) : Bool :=
  match node.replayHeadTime with
  | some time => decide (trx.expiration * 1000000 ≤ time)
  | none => false

/-- The part of `push_transaction` that initialises the context. -/
def initTrx : ExecM σ Unit :=
  if m.implicit then do
    initForImplicitTrx env node
    modifyCtx fun c => { c with enforceWhiteblacklist := false }
  else
    initForInputTrx env node m.unprunableSize m.prunableSize (skipRecording node m.trx)

/-- `push_transaction` up to the execution. -/
def prepareTrx : ExecM σ Unit := do
  initTrx env node m
  modifyCtx fun c => { c with delay := m.trx.delaySec * 1000000 }
  whenever (node.skipAuthCheck = false ∧ m.implicit = false)
    (checkAuthorization env m.trx.actions m.recoveredKeys [] (m.trx.delaySec * 1000000 : Nat) [])
  whenever (m.implicit = false) (settleFee env)

/-- The execution of a transaction. -/
def execTrx : ExecM σ Unit := do
  let c := (← get).ctx
  require (c.explicitBilledCpuTime = false ∨ c.billedCpuTimeUs ≠ 0) .transaction "error trx"
  exec env node
  finalize env node

/-- The body of `push_transaction` on its own session.  Unless `onfee_action`
    is open, an exception of the execution is kept as a value. -/
def runTrx : ExecM σ (Option FcException) := do
  prepareTrx env node m
  let t := (← get).db.tables
  match ← attempt (fun e => if onfeeOpen env t then none else e.caught) (execTrx env node) with
  | .ok _ => pure none
  | .error e => pure (some e)

/-- Whether the results of a transaction are thrown away in any case: only in
    speculative mode does a node keep a state of its own ahead of the chain. -/
def discards : Prop :=
  node.readMode ≠ .speculative ∧ node.blockStatus = .incomplete

instance (node : Node) : Decidable (discards node) := by
  unfold discards
  infer_instance

/-- The database when a session ends without being squashed. -/
def undone (before after : Db σ) : Db σ :=
  if node.skipDbSessions then after else before

/-- The receipt of a transaction that ran. -/
def receiptOf (c : Context) : TransactionReceipt :=
  receipt (.packed m.trx) (if c.delay = 0 then .executed else .delayed) c.billedCpuTimeUs c.netUsage

/-- The receipt in the trace of a transaction that ran; an implicit one is not
    entered into the block. -/
def traceReceipt (c : Context) : ReceiptHeader :=
  if m.implicit then
    (receipt (.packed m.trx) .executed c.billedCpuTimeUs c.netUsage).header
  else (receiptOf m c).header

/-- `push_transaction` once the fee is paid. -/
def pushBody (b : Billing) : PipeM σ Trace := do
  let s ← get
  match runTrx env node m ⟨s.db, startContext node m b⟩ with
  | .ok except e =>
    if discards node then do
      setDb (undone node s.db e.db)
      pure { receipt := some (traceReceipt m e.ctx), except := except }
    else do
      whenever (m.implicit = false) do
        pushReceipt (receiptOf m e.ctx)
        pushMeta m
      pushActions e.ctx.executed
      setDb e.db
      pure { receipt := some (traceReceipt m e.ctx), except := except }
  | .error err e => do
      setDb (undone node s.db e.db)
      if isBadBlock err ∨ err.isStd then throw err.asFc
      else pure { except := some err }

/-- `push_transaction`, given how the fee is paid beforehand. -/
def pushWith (payFee : PipeM σ Unit) (m : TrxMetadata) (b : Billing) :
    PipeM σ Trace := do
  require (b.deadline ≠ 0) .transaction "deadline cannot be uninitialized"
  raise (checkAction (← get).db.tables m.trx.actions)
  payFee
  pushBody env node m b

def defaultMinTransactionCpuUsage : Nat := 100

/-- What the fee transaction is billed. -/
def feeBilling (feeClock : Clock) : Billing where
  billedCpuTimeUs := defaultMinTransactionCpuUsage
  explicitBilledCpuTime := true
  clock := feeClock

/-- The push of the fee transaction. -/
def feePush (feeClock : Clock) (actor : Name) : PipeM σ Trace :=
  pushWith env node (pure ()) (implicitMetadata env (getOnFeeTransaction env m.trx.fee actor))
    (feeBilling feeClock)

/-- The fee transaction that goes before an input transaction as long as
    `onfee_action` is not open. -/
def payFee (feeClock : Clock) : PipeM σ Unit := do
  if onfeeOpen env (← get).db.tables then pure ()
  else
    match m.trx.firstActor with
    | none => throw undefinedBehaviour
    | some actor => do
        match ← attempt some (feePush env node m feeClock actor) with
        | .ok trace =>
          require (trace.except = none) .transaction
            "on fee transaction failed, exception: $\x7be\x7d"
        | .error _ => throw ⟨.transaction, "on fee transaction failed, exception: $\x7be\x7d"⟩

/-- `push_transaction`. -/
def pushTransaction (b : Billing) (feeClock : Clock) : PipeM σ Trace :=
  pushWith env node (if m.implicit then pure () else payFee env node m feeClock) m b

/-! ## Scheduled transactions -/

def onPipeResources {α : Type} (x : ResourceM α) : PipeM σ α :=
  zoom (·.db.resources) (fun r s => { s with db := { s.db with resources := r } }) x

variable (g : GeneratedTransaction)

/-- `remove_scheduled_transaction`. -/
def removeScheduledTransaction : PipeM σ Unit := do
  onPipeResources (addPendingRamUsage g.payer
    (-((billableSizeOfGenerated + env.packedSize g.trx : Nat) : Int)))
  modify fun s => { s with db := removeGenerated s.db g.sender g.senderId }

/-- The `onerror` transaction for a failed deferred transaction. -/
def onerrorTransaction : Transaction :=
  generatedHeader env
    [{ account := N.eosio
       name := N.onerror
       authorization := [⟨g.sender, N.active⟩]
       data := env.packOnerror g.senderId g.trx }]

/-- The body of `apply_onerror` on its session. -/
def runOnerror : ExecM σ Unit := do
  initForImplicitTrx env node
  modifyCtx fun c => { c with published := g.published }
  let acts := (← get).ctx.trx.actions
  match acts.getLast? with
  | none => throw undefinedBehaviour
  | some act => do
      let ordinal ← scheduleAction act g.sender false 0 .implicit
      executeAction env node maxDepth ordinal
      finalize env node

/-- `update_billed_cpu_time` once an exception was caught. -/
def billedAtThrow (e : ExecState σ) : Nat :=
  match (updateBilledCpuTime : ExecM σ Nat) e with
  | .ok n _ => n
  | .error _ _ => 0

variable (b : Billing)

/-- `apply_onerror`, with the CPU time to bill where it fails. -/
def applyOnerror (enforceWhiteblacklist : Bool) : PipeM σ (Trace × Nat) := do
  let s ← get
  let etrx := onerrorTransaction env g
  let ctx : Context :=
    { trx := etrx
      id := env.trxId etrx
      clock := b.clock
      deadline := b.deadline
      explicitBilledCpuTime := b.explicitBilledCpuTime
      billedCpuTimeUs := b.billedCpuTimeUs
      enforceWhiteblacklist := enforceWhiteblacklist }
  match runOnerror env node g ⟨s.db, ctx⟩ with
  | .ok _ e => do
      let r := receipt (.id g.trxId) .softFail e.ctx.billedCpuTimeUs e.ctx.netUsage
      pushReceipt r
      pushActions e.ctx.executed
      setDb e.db
      pure ({ receipt := some r.header }, 0)
  | .error err e =>
    if isBadBlock err ∨ err.isStd then throw err
    else pure ({ except := some err }, billedAtThrow e)

/-- How the fee of a scheduled transaction is settled before it runs. -/
def scheduledFee (isOnfeeAct : Prop) [Decidable isOnfeeAct] (dtrx : Transaction) : ExecM σ Unit :=
  if isOnfeeAct then do
    let feeLimit ← raise (getFromExtensions env.unpackAsset dtrx feeLimitExtension)
    makeFeeAct (feeLimit.getD Asset.zero)
  else makeLimitByContract dtrx.fee

/-- The body of `push_scheduled_transaction` on its inner session. -/
def runScheduled : ExecM σ Unit := do
  let t := (← get).db.tables
  raise (checkAction t g.trx.actions)
  initForDeferredTrx env node g.published
  scheduledFee env (onfeeOpen env t) g.trx
  let c := (← get).ctx
  whenever (c.enforceWhiteblacklist = true ∧ node.isProducingBlock = true)
    (raise (checkActorList node
      (g.trx.actions.flatMap fun a => a.authorization.map (·.actor))))
  exec env node
  finalize env node

/-- Which failures leave a scheduled transaction where it is. -/
def subjective (e : FcException) : Bool :=
  if b.explicitBilledCpuTime then failureIsSubjective e else scheduledFailureIsSubjective e

/-- The CPU time that a hard failure bills: what the caller said, or what the
    billed accounts can pay of the time it took. -/
def hardFailCpuTime (c : Context) (b : Billing) (pendingSlot cpuTimeToBillUs : Nat) :
    ResourceM Nat := do
  if b.explicitBilledCpuTime then pure cpuTimeToBillUs
  else do
    updateAccountUsage c.billToAccounts pendingSlot
    let w ← raise (maxBandwidthBilledAccountsCanPay node true (← get) c.billToAccounts)
    pure ((min (min (cpuTimeToBillUs : Int) w.accountCpuLimit) c.initialObjectiveDurationLimit
      % 2 ^ 32).toNat)

/-- The end of `push_scheduled_transaction` after a failure: whether its outer
    session is squashed comes second. -/
def retireFailed (c : Context) (err : FcException) (cpuTimeToBillUs : Nat) :
    PipeM σ (Trace × Bool) := do
  if subjective b err then pure ({ except := some err }, false)
  else do
    let cpu ← onPipeResources (hardFailCpuTime node c b env.pendingSlot cpuTimeToBillUs)
    onPipeResources (addTransactionUsage c.billToAccounts cpu 0 env.pendingSlot)
    let r := receipt (.id g.trxId) .hardFail cpu 0
    pushReceipt r
    pure ({ receipt := some r.header, except := some err }, true)

/-- The context of a scheduled transaction. -/
def scheduledContext : Context :=
  { trx := g.trx
    id := g.trxId
    clock := b.clock
    leeway := 0
    deadline := b.deadline
    explicitBilledCpuTime := b.explicitBilledCpuTime
    billedCpuTimeUs := b.billedCpuTimeUs
    enforceWhiteblacklist :=
      decide (g.sender = noName) || !senderAvoidsWhitelistBlacklistEnforcement node g.sender }

/-- `push_scheduled_transaction` inside its outer session. -/
def retire (errorClock : Clock) : PipeM σ (Trace × Bool) := do
  removeScheduledTransaction env g
  require (g.delayUntil ≤ env.pendingBlockTime) .transaction "this transaction isn't ready"
  if g.expiration < env.pendingBlockTime then do
    let r := receipt (.id g.trxId) .expired b.billedCpuTimeUs 0
    pushReceipt r
    pure ({ receipt := some r.header }, true)
  else do
    -- from here on the node checks everything, whatever its settings
    let node := { node with inTrxRequiringChecks := true }
    let c := scheduledContext node g b
    match runScheduled env node g ⟨(← get).db, c⟩ with
    | .ok _ e => do
        let r := receipt (.id g.trxId) .executed e.ctx.billedCpuTimeUs e.ctx.netUsage
        pushReceipt r
        pushActions e.ctx.executed
        setDb e.db
        pure ({ receipt := some r.header }, true)
    | .error err e => do
        if isBadBlock err ∨ err.isStd then throw err
        else if g.sender ≠ noName ∧ subjective b err = false then do
          let (trace, cpu) ← applyOnerror env node g { b with clock := errorClock }
            c.enforceWhiteblacklist
          match trace.except with
          | none => pure (trace, true)
          | some err' => retireFailed env node g b e.ctx err' cpu
        else retireFailed env node g b e.ctx err (billedAtThrow e)

/-- `push_scheduled_transaction` of an object. -/
def pushScheduledObject (errorClock : Clock) : PipeM σ Trace := fun s =>
  match retire env node g b errorClock s with
  | .ok (trace, squash) s' =>
    .ok trace (if squash then s' else { s' with db := undone node s.db s'.db })
  | .error e s' => .error e.asFc { s' with db := undone node s.db s'.db }

/-- `push_scheduled_transaction`. -/
def pushScheduledTransaction (trxId : Digest) (b : Billing) (errorClock : Clock) :
    PipeM σ Trace := do
  match (← get).db.generated.find? fun g => g.trxId = trxId with
  | none => throw ⟨.unknownTransaction, "unknown transaction"⟩
  | some g => pushScheduledObject env node g b errorClock

end Pushing

/-! ## A small chain

    One account besides the system account, no contracts unless `wasm` says
    so, and a packing of fee parameters as three 64-bit numbers. -/

namespace SmallChain

def toBytes (n : UInt64) : Bytes :=
  (List.range 8).map fun i => UInt8.ofNat (n.toNat / 256 ^ i % 256)

def ofBytes (l : Bytes) : Nat := l.foldr (fun b acc => b.toNat + 256 * acc) 0

def ofBytes64 (l : Bytes) : UInt64 := UInt64.ofNat (ofBytes l)

def packFee (p : FeeParameter) : Bytes :=
  toBytes p.name.value ++ toBytes (UInt64.ofInt p.fee.amount) ++ toBytes p.producer.value

def unpackFee (l : Bytes) : Except FcException FeeParameter :=
  .ok ⟨⟨ofBytes64 (l.take 8)⟩, ⟨asInt64 (ofBytes ((l.drop 8).take 8)), coreSymbol⟩,
    ⟨ofBytes64 (l.drop 16)⟩⟩

def alice : Name := ⟨100⟩

def env (headBlockNum : Nat) (wasm : Digest → Program Unit) : Env Unit where
  headBlockNum := headBlockNum
  headProducer := noName
  refBlockNum := 0
  refBlockPrefix := 0
  pendingBlockTime := 100000000
  pendingSlot := 7
  features := {}
  packFee := packFee
  unpackFee := unpackFee
  unpackAsset _ := .ok Asset.zero
  unpackName _ := .ok noName
  packOnerror _ _ := []
  packGenerationContext _ := []
  extractExtensions _ := .ok []
  trxId t := t.expiration
  actDigest _ := 0
  packedSize _ := 100
  checkAuthorization _ _ _ _ _ _ := (0, .ok ())
  findPermission _ _ := true
  updatePermissionUsage _ t := .ok t
  verifyReferenceBlock _ _ := true
  addToRamCorrection _ _ t := t
  native _ _ _ := none
  wasm := wasm

/-- The tables: `alice` has the code with hash `code`, `onfee` is the block at
    which `onfee_action` opens. -/
def tables (onfee : Option Int) (code : Digest) (emergency : Bool) : Tables Unit where
  accounts a :=
    if a = alice then some { codeHash := code } else if a = N.eosio then some {} else none
  actionFees _ _ := none
  configNums n := if n = Config.onfeeAction then onfee else none
  chainStatus := some (some emergency)
  balances a := if a = alice then some ⟨1000000, coreSymbol⟩ else none
  bps _ := none
  votes _ _ := none
  vote4ram _ := none
  configuration := { maxTransactionNetUsage := 100000, maxTransactionCpuUsage := 100000 }
  rest := ()

def resources : Resources where
  usage a := if a = alice ∨ a = N.eosio then some {} else none
  weights a := if a = alice ∨ a = N.eosio then some {} else none
  virtualNetLimit := 1000000
  virtualCpuLimit := 1000000
  maxNet := 1000000
  maxCpu := 1000000
  accountNetUsageAverageWindow := 10
  accountCpuUsageAverageWindow := 10

def db (onfee : Option Int) (code : Digest) (emergency : Bool) : Db Unit where
  tables := tables onfee code emergency
  resources := resources

def producer : Node := { blockStatus := .incomplete }

def noCode : Digest → Program Unit := fun _ _ _ => []

/-- A transfer of `alice`, and a transaction of it. -/
def pay : Action := ⟨N.eosio, FeeRule.N.transfer, [⟨alice, N.active⟩], []⟩

def transfer : TrxMetadata where
  id := 200
  trx := { expiration := 200, actions := [pay] }
  unprunableSize := 100

end SmallChain

end Push
