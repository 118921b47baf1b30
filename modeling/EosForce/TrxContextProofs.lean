import EosForce.FeeRuleProofs
import Mathlib.Data.List.Sort

/-! # `transaction_context`

    One transaction in execution: how it is set up, what it may use, which
    actions it schedules and what it is billed.  Code outside the repository
    and the parts of the node that do not belong to the pipeline come in as
    `Env`, the settings of one node as `Node`, and what the wall clock shows
    during one transaction as `Clock`. -/

namespace TrxContext

open ChainTypes TrxTypes Effect Resource Database FeeRule

/-! ## What surrounds a transaction -/

/-- What contract code can ask of the chain. -/
inductive HostCall (σ : Type) where
  | write (f : Tables σ → Tables σ)
  | checktime
  | addRamUsage (account : Name) (delta : Int)
  | updateDbUsage (payer : Name) (delta : Int)
  | validateRamUsage (account : Name)
  | initializeAccount (account : Name)
  | setAccountLimits (account : Name) (w : ResourceWeights)
  | checkSignatureSize (variableSize : Nat)
  | checkKeyList (key : PublicKey)
  | preactivateFeature (digest : Digest)
  | requireRecipient (recipient : Name)
  | executeInline (a : Action)
  | executeContextFreeInline (a : Action)
  | scheduleDeferred (senderId : Nat) (payer : Name) (trx : Transaction) (replaceExisting : Bool)
  | cancelDeferred (senderId : Nat) (sender : Name)
  | fail (e : FcException)

/-- What contract code is run for. -/
structure Invocation where
  trx : Transaction
  trxId : Digest
  receiver : Name
  act : Action
  contextFree : Bool
  sender : Name

/-- Contract code: a function of the database and the action. -/
abbrev Program (σ : Type) := Db σ → Invocation → List (HostCall σ)

/-- The built-in protocol features that the pipeline asks for. -/
structure Features where
  onlyBillFirstAuthorizer : Bool := false
  noDuplicateDeferredId : Bool := false
  ramRestrictions : Bool := false
  forwardSetcode : Bool := false
  restrictActionToSelf : Bool := false
  replaceDeferred : Bool := false

/-- `deferred_transaction_generation_context`. -/
structure GenerationContext where
  senderTrxId : Digest
  senderId : Nat
  sender : Name

/-- The chain around one pending block, the same on every node.
    `checkAuthorization` also says how often it asks for the time. -/
structure Env (σ : Type) where
  headBlockNum : Nat
  headProducer : Name
  refBlockNum : Nat
  refBlockPrefix : Nat
  pendingBlockTime : Nat
  pendingSlot : Nat
  features : Features
  packFee : FeeParameter → Bytes
  unpackFee : Bytes → Except FcException FeeParameter
  unpackAsset : Bytes → Except FcException Asset
  unpackName : Bytes → Except FcException Name
  packOnerror : Nat → Transaction → Bytes
  packGenerationContext : GenerationContext → Bytes
  extractExtensions : Transaction → Except FcException (List GenerationContext)
  trxId : Transaction → Digest
  actDigest : Action → Digest
  packedSize : Transaction → Nat
  checkAuthorization : Tables σ → List Action → List PublicKey →
    List PermissionLevel → Int → List PermissionLevel → Nat × Except FcException Unit
  findPermission : Tables σ → PermissionLevel → Bool
  updatePermissionUsage : PermissionLevel → σ → Except FcException σ
  verifyReferenceBlock : Tables σ → Transaction → Bool
  addToRamCorrection : Name → Nat → σ → σ
  native : Name → Name → Name → Option (Program σ)
  wasm : Digest → Program σ

/-- The settings of one node, with the status of its pending block. -/
structure Node where
  blockStatus : BlockStatus
  readMode : ReadMode := .speculative
  inTrxRequiringChecks : Bool := false
  lightValidation : Bool := false
  forceAllChecks : Bool := false
  disableReplayOpts : Bool := false
  replayHeadTime : Option Nat := none
  subjectiveCpuLeeway : Option Nat := none
  greylistLimit : Nat := maximumElasticResourceMultiplier
  resourceGreylist : List Name := []
  actorWhitelist : List Name := []
  actorBlacklist : List Name := []
  contractWhitelist : List Name := []
  contractBlacklist : List Name := []
  actionBlacklist : List (Name × Name) := []
  keyBlacklist : List PublicKey := []
  unrecognizedFeatures : List Digest := []
  maximumVariableSignatureLength : Nat := 16384
  senderBypassWhiteblacklist : List Name := []
  allowRamBillingInNotify : Bool := false
  disableAllSubjectiveMitigations : Bool := false

variable (n : Node)

/-- `is_producing_block`. -/
def Node.isProducingBlock : Bool := decide (n.blockStatus = .incomplete)

/-- `light_validation_allowed`. -/
def Node.lightValidationAllowed (replayOptsDisabledByPolicy : Bool) : Bool :=
  !n.inTrxRequiringChecks &&
    ((decide (n.blockStatus = .irreversible ∨ n.blockStatus = .validated)
        && !replayOptsDisabledByPolicy)
      || (decide (n.blockStatus = .complete) && n.lightValidation))

def Node.skipAuthCheck : Bool := n.lightValidationAllowed n.forceAllChecks

def Node.skipTrxChecks : Bool := n.lightValidationAllowed n.disableReplayOpts

def Node.skipDbSessions : Bool :=
  decide (n.blockStatus = .irreversible) && !n.disableReplayOpts && !n.inTrxRequiringChecks

/-- What the clock shows during one transaction: whether the timer has run
    out at its `n`-th reading, and the microseconds gone by then. -/
structure Clock where
  start : Int := 0
  expired : Nat → Bool := fun _ => false
  elapsed : Nat → Nat := fun _ => 1

/-- The codes that `deadline_exception_code` takes. -/
inductive DeadlineCode where
  | deadline
  | blockCpuUsageExceeded
  | txCpuUsageExceeded
  | leewayDeadline
deriving DecidableEq, Repr

/-! ## Lists that a producer keeps -/

/-- `check_actor_list`. -/
def checkActorList (actors : List Name) : Except FcException Unit :=
  if actors = [] then .ok ()
  else if n.actorWhitelist ≠ [] then
    eosAssert (∀ a ∈ actors, a ∈ n.actorWhitelist) .actorWhitelist
      "authorizing actor(s) in transaction are not on the actor whitelist: $\x7bactors\x7d"
  else
    eosAssert (∀ a ∈ actors, a ∉ n.actorBlacklist) .actorBlacklist
      "authorizing actor(s) in transaction are on the actor blacklist: $\x7bactors\x7d"

/-- `check_contract_list`. -/
def checkContractList (code : Name) : Except FcException Unit :=
  if n.contractWhitelist ≠ [] then
    eosAssert (code ∈ n.contractWhitelist) .contractWhitelist
      "account '$\x7bcode\x7d' is not on the contract whitelist"
  else
    eosAssert (code ∉ n.contractBlacklist) .contractBlacklist
      "account '$\x7bcode\x7d' is on the contract blacklist"

/-- `check_action_list`. -/
def checkActionList (code action : Name) : Except FcException Unit :=
  eosAssert ((code, action) ∉ n.actionBlacklist) .actionBlacklist
    "action '$\x7bcode\x7d::$\x7baction\x7d' is on the action blacklist"

def senderAvoidsWhitelistBlacklistEnforcement (sender : Name) : Bool :=
  decide (sender ∈ n.senderBypassWhiteblacklist)

/-- `is_ram_billing_in_notify_allowed`. -/
def Node.isRamBillingInNotifyAllowed : Bool :=
  n.disableAllSubjectiveMitigations || !n.isProducingBlock || n.allowRamBillingInNotify

/-! ## The context -/

/-- `fc::time_point::maximum()`, in microseconds. -/
def timePointMaximum : Int := int64Max

def largeNumberNoOverflow : Int := int64Max / 2

/-- A `flat_set` filled with the names of a list. -/
def flatSet (l : List Name) : List Name :=
  l.dedup.insertionSort fun a b => a.value ≤ b.value

/-- `transaction_context`.  `transactionTimer` is the time point that the
    timer was started with, `ticks` counts the readings of the clock. -/
structure Context where
  trx : Transaction
  id : Digest
  clock : Clock := {}
  ticks : Nat := 0
  published : Nat := 0
  executed : List Executed := []
  billToAccounts : List Name := []
  validateRamUsage : List Name := []
  delay : Nat := 0
  isInput : Bool := false
  applyContextFree : Bool := true
  enforceWhiteblacklist : Bool := true
  deadline : Int := timePointMaximum
  leeway : Nat := 31000
  billedCpuTimeUs : Nat := 0
  explicitBilledCpuTime : Bool := false
  transactionTimer : Option Int := none
  feePayer : Name := noName
  feeCosted : Asset := Asset.zero
  maxFeeToPay : Asset := Asset.zero
  isInitialized : Bool := false
  netLimit : Nat := 0
  netLimitDueToBlock : Bool := true
  netLimitDueToGreylist : Bool := false
  eagerNetLimit : Nat := 0
  netUsage : Nat := 0
  cpuLimitDueToGreylist : Bool := false
  initialObjectiveDurationLimit : Int := 0
  objectiveDurationLimit : Int := 0
  innerDeadline : Int := timePointMaximum
  deadlineExceptionCode : DeadlineCode := .blockCpuUsageExceeded
  billingTimerExceptionCode : DeadlineCode := .blockCpuUsageExceeded
  actionTraces : List ActionTrace := []
  cpuLimitByContract : Nat := 0
  netLimitByContract : Nat := 0
  useLimitByContract : Bool := false

/-- A transaction in execution, on the database. -/
structure ExecState (σ : Type) where
  db : Db σ
  ctx : Context

variable {σ : Type}

abbrev ExecM (σ : Type) := EStateM FcException (ExecState σ)

def modifyCtx (f : Context → Context) : ExecM σ Unit :=
  modify fun s => { s with ctx := f s.ctx }

def modifyDb (f : Db σ → Db σ) : ExecM σ Unit :=
  modify fun s => { s with db := f s.db }

theorem modifyCtx_bind {β : Type} (f : Context → Context) (g : Unit → ExecM σ β)
    (s : ExecState σ) : (modifyCtx f >>= g) s = g () { s with ctx := f s.ctx } := rfl

theorem modifyDb_bind {β : Type} (f : Db σ → Db σ) (g : Unit → ExecM σ β) (s : ExecState σ) :
    (modifyDb f >>= g) s = g () { s with db := f s.db } := rfl

def onResources {α : Type} (x : ResourceM α) : ExecM σ α :=
  zoom (·.db.resources) (fun r s => { s with db := { s.db with resources := r } }) x

def onTables {α : Type} (x : EStateM FcException (Tables σ) α) : ExecM σ α :=
  zoom (·.db.tables) (fun t s => { s with db := { s.db with tables := t } }) x

/-! ## Limits -/

/-- What `checktime` throws. -/
def deadlineException (c : Context) : FcException :=
  if c.explicitBilledCpuTime then
    ⟨.deadline, "deadline exceeded $\x7bbilling_timer\x7dus"⟩
  else
    match c.deadlineExceptionCode with
    | .deadline => ⟨.deadline, "deadline exceeded $\x7bbilling_timer\x7dus"⟩
    | .blockCpuUsageExceeded => ⟨.blockCpuUsageExceeded,
        "not enough time left in block to complete executing transaction $\x7bbilling_timer\x7dus"⟩
    | .txCpuUsageExceeded =>
      if c.cpuLimitDueToGreylist then ⟨.greylistCpuUsageExceeded,
        "greylisted transaction was executing for too long $\x7bbilling_timer\x7dus"⟩
      else ⟨.txCpuUsageExceeded, "transaction was executing for too long $\x7bbilling_timer\x7dus"⟩
    | .leewayDeadline => ⟨.leewayDeadline,
        "the transaction was unable to complete by deadline, but it is possible it could have succeeded if it were allowed to run to completion $\x7bbilling_timer\x7d"⟩

/-- `checktime`: a timer that was not started, or started with no limit, does
    not run out. -/
def checktime : ExecM σ Unit := do
  let c := (← get).ctx
  modifyCtx fun c => { c with ticks := c.ticks + 1 }
  match c.transactionTimer with
  | none => pure ()
  | some tp =>
    if tp ≠ timePointMaximum ∧ c.clock.expired c.ticks = true then
      throw (deadlineException c)
    else pure ()

/-- `check_net_usage`. -/
def checkNetUsage (node : Node) : ExecM σ Unit := do
  let c := (← get).ctx
  if node.skipTrxChecks = true ∨ c.netUsage ≤ c.eagerNetLimit then pure ()
  else if c.netLimitDueToBlock then
    throw ⟨.blockNetUsageExceeded,
      "not enough space left in block: $\x7bnet_usage\x7d > $\x7bnet_limit\x7d"⟩
  else if c.netLimitDueToGreylist then
    throw ⟨.greylistNetUsageExceeded,
      "greylisted transaction net usage is too high: $\x7bnet_usage\x7d > $\x7bnet_limit\x7d"⟩
  else
    throw ⟨.txNetUsageExceeded,
      "transaction net usage is too high: $\x7bnet_usage\x7d > $\x7bnet_limit\x7d"⟩

def addNetUsage (node : Node) (u : Nat) : ExecM σ Unit := do
  modifyCtx fun c => { c with netUsage := c.netUsage + u }
  checkNetUsage node

/-- `validate_cpu_usage_to_bill`. -/
def validateCpuUsageToBill (node : Node) (billedUs : Nat) (checkMinimum : Bool) :
    ExecM σ Unit := do
  let s ← get
  let c := s.ctx
  if node.skipTrxChecks then pure ()
  else do
    require (checkMinimum = true →
        s.db.tables.configuration.minTransactionCpuUsage.toNat ≤ billedUs) .transaction
      "cannot bill CPU time less than the minimum of $\x7bmin_billable\x7d us"
    if c.billingTimerExceptionCode = .blockCpuUsageExceeded then
      require ((billedUs : Int) ≤ c.objectiveDurationLimit) .blockCpuUsageExceeded
        "billed CPU time ($\x7bbilled\x7d us) is greater than the billable CPU time left in the block ($\x7bbillable\x7d us)"
    else if c.cpuLimitDueToGreylist then
      require ((billedUs : Int) ≤ c.objectiveDurationLimit) .greylistCpuUsageExceeded
        "billed CPU time ($\x7bbilled\x7d us) is greater than the maximum greylisted billable CPU time for the transaction ($\x7bbillable\x7d us)"
    else
      require ((billedUs : Int) ≤ c.objectiveDurationLimit) .txCpuUsageExceeded
        "billed CPU time ($\x7bbilled\x7d us) is greater than the maximum billable CPU time for the transaction ($\x7bbillable\x7d us)"

/-- `update_billed_cpu_time`. -/
def updateBilledCpuTime : ExecM σ Nat := do
  let s ← get
  if s.ctx.explicitBilledCpuTime then pure (s.ctx.billedCpuTimeUs % 2 ^ 32)
  else do
    let billed := max (s.ctx.clock.elapsed s.ctx.ticks)
      s.db.tables.configuration.minTransactionCpuUsage.toNat
    modifyCtx fun c => { c with billedCpuTimeUs := billed }
    pure (billed % 2 ^ 32)

/-- What billed accounts can still use, and whether a greylist lowered it. -/
structure Bandwidth where
  accountNetLimit : Int := largeNumberNoOverflow
  accountCpuLimit : Int := largeNumberNoOverflow
  greylistedNet : Bool := false
  greylistedCpu : Bool := false

/-- The greylist limit that applies to an account. -/
def greylistLimitOf (node : Node) (forceElasticLimits : Bool) (a : Name) : Nat :=
  if !forceElasticLimits && node.isProducingBlock then
    if a ∈ node.resourceGreylist then 1 else node.greylistLimit
  else maximumElasticResourceMultiplier

/-- One account of `max_bandwidth_billed_accounts_can_pay`. -/
def bandwidthStep (r : Resources) (limitOf : Name → Nat) (b : Bandwidth) (a : Name) :
    Except FcException Bandwidth := do
  let net ← getAccountNetLimit r a (limitOf a)
  let b := if 0 ≤ net.1 then
      { b with accountNetLimit := min b.accountNetLimit net.1
               greylistedNet := b.greylistedNet || net.2 }
    else b
  let cpu ← getAccountCpuLimit r a (limitOf a)
  pure (if 0 ≤ cpu.1 then
      { b with accountCpuLimit := min b.accountCpuLimit cpu.1
               greylistedCpu := b.greylistedCpu || cpu.2 }
    else b)

/-- `max_bandwidth_billed_accounts_can_pay`. -/
def maxBandwidthBilledAccountsCanPay (node : Node) (forceElasticLimits : Bool) (r : Resources)
    (billToAccounts : List Name) : Except FcException Bandwidth :=
  billToAccounts.foldlM (bandwidthStep r (greylistLimitOf node forceElasticLimits)) {}

/-! ## Setting a transaction up -/

/-- A `uint64_t` read as `int64_t`. -/
def asInt64 (n : Nat) : Int := if n < 2 ^ 63 then n else (n : Int) - 2 ^ 64

/-- The first part of `init`: the limits that the block, the chain
    configuration and the transaction set. -/
def objectiveLimits (cfg : ChainConfig) (r : Resources) (c : Context) : Context :=
  let netLimit := getBlockNetLimit r
  let duration := asInt64 (getBlockCpuLimit r)
  let c := { c with netLimit := netLimit, objectiveDurationLimit := duration }
  let c := if cfg.maxTransactionNetUsage.toNat ≤ c.netLimit then
      { c with netLimit := cfg.maxTransactionNetUsage.toNat, netLimitDueToBlock := false }
    else c
  let c := if (cfg.maxTransactionCpuUsage.toNat : Int) ≤ c.objectiveDurationLimit then
      { c with objectiveDurationLimit := cfg.maxTransactionCpuUsage.toNat
               billingTimerExceptionCode := .txCpuUsageExceeded }
    else c
  let c := if 0 < c.trx.maxNetUsageWords ∧ c.trx.maxNetUsageWords * 8 ≤ c.netLimit then
      { c with netLimit := c.trx.maxNetUsageWords * 8, netLimitDueToBlock := false }
    else c
  let c := if 0 < c.trx.maxCpuUsageMs ∧
        ((c.trx.maxCpuUsageMs * 1000 : Nat) : Int) ≤ c.objectiveDurationLimit then
      { c with objectiveDurationLimit := (c.trx.maxCpuUsageMs * 1000 : Nat)
               billingTimerExceptionCode := .txCpuUsageExceeded }
    else c
  { c with initialObjectiveDurationLimit := c.objectiveDurationLimit
           innerDeadline := c.clock.start + c.objectiveDurationLimit }

/-- The accounts that `init` bills. -/
def billTo (features : Features) (trx : Transaction) : List Name :=
  if features.onlyBillFirstAuthorizer then [trx.firstAuthorizer]
  else flatSet (trx.actions.flatMap fun a => a.authorization.map (·.actor))

/-- The second part of `init`: the limits that the billed accounts and the
    caller set. -/
def accountLimits (cfg : ChainConfig) (b : Bandwidth) (c : Context) : Context :=
  let eager := min c.netLimit (b.accountNetLimit + cfg.netUsageLeeway.toNat).toNat
  let c := { c with
    netLimitDueToGreylist := c.netLimitDueToGreylist || b.greylistedNet
    cpuLimitDueToGreylist := c.cpuLimitDueToGreylist || b.greylistedCpu
    netLimitDueToBlock := c.netLimitDueToBlock && !decide (eager < c.netLimit)
    eagerNetLimit := eager / 8 * 8 }
  let c := if b.accountCpuLimit + c.leeway ≤ c.innerDeadline - c.clock.start then
      { c with innerDeadline := c.clock.start + b.accountCpuLimit + c.leeway
               billingTimerExceptionCode := .leewayDeadline }
    else c
  if c.explicitBilledCpuTime = true ∨ c.deadline < c.innerDeadline then
    { c with innerDeadline := c.deadline, deadlineExceptionCode := .deadline }
  else { c with deadlineExceptionCode := c.billingTimerExceptionCode }

variable (env : Env σ)

/-- `init`. -/
def init (node : Node) (initialNetUsage : Nat) : ExecM σ Unit := do
  let s ← get
  require (s.ctx.isInitialized = false) .transaction "cannot initialize twice"
  let cfg := s.db.tables.configuration
  modifyCtx (objectiveLimits cfg s.db.resources)
  whenever (0 < s.ctx.billedCpuTimeUs) (validateCpuUsageToBill node s.ctx.billedCpuTimeUs false)
  let accounts := billTo env.features s.ctx.trx
  modifyCtx fun c => { c with billToAccounts := accounts }
  onResources (updateAccountUsage accounts env.pendingSlot)
  let r := (← get).db.resources
  let b ← raise (maxBandwidthBilledAccountsCanPay node false r accounts)
  modifyCtx (accountLimits cfg b)
  whenever (0 < initialNetUsage) (addNetUsage node initialNetUsage)
  checktime
  modifyCtx fun c => { c with
    transactionTimer := some (if node.skipTrxChecks then timePointMaximum else c.innerDeadline)
    isInitialized := true }

/-- `disallow_transaction_extensions`. -/
def disallowTransactionExtensions (node : Node) (msg : String) : ExecM σ Unit :=
  throw ⟨if node.isProducingBlock then .subjectiveBlockProduction
    else .disallowedTransactionExtensionsBadBlock, msg⟩

/-- `init_for_implicit_trx`. -/
def initForImplicitTrx (node : Node) : ExecM σ Unit := do
  let c := (← get).ctx
  whenever (c.trx.transactionExtensions ≠ []) (disallowTransactionExtensions node
    "no transaction extensions supported yet for implicit transactions")
  modifyCtx fun c => { c with published := env.pendingBlockTime }
  init env node 0

/-- `validate_expiration`. -/
def validateExpiration (cfg : ChainConfig) (trx : Transaction) :
    Except FcException Unit := do
  eosAssert (env.pendingBlockTime ≤ trx.expiration * 1000000) .expiredTx
    "transaction has expired, expiration is $\x7btrx.expiration\x7d and pending block time is $\x7bpending_block_time\x7d"
  eosAssert (trx.expiration * 1000000
      ≤ env.pendingBlockTime + cfg.maxTransactionLifetime.toNat * 1000000) .txExpTooFar
    "Transaction expiration is too far in the future relative to the reference time of $\x7breference_time\x7d, expiration is $\x7btrx.expiration\x7d and the maximum transaction lifetime is $\x7bmax_til_exp\x7d seconds"

variable (t : Tables σ)

/-- `validate_tapos`. -/
def validateTapos (trx : Transaction) : Except FcException Unit :=
  eosAssert (env.verifyReferenceBlock t trx = true) .invalidRefBlock
    "Transaction's reference block did not match. Is this transaction from a different fork?"

/-- The checks of `validate_referenced_accounts` on one authorization. -/
def validateAuthorization (auth : PermissionLevel) :
    Except FcException Unit := do
  eosAssert ((t.accounts auth.actor).isSome = true) .transaction
    "action's authorizing actor '$\x7baccount\x7d' does not exist"
  eosAssert (env.findPermission t auth = true) .transaction
    "action's authorizations include a non-existent permission: \x7bpermission\x7d"

variable (node : Node)

/-- `validate_referenced_accounts`. -/
def validateReferencedAccounts (t : Tables σ) (trx : Transaction)
    (enforceActorWhitelistBlacklist : Bool) : Except FcException Unit := do
  trx.contextFreeActions.forM fun a => do
    eosAssert ((t.accounts a.account).isSome = true) .transaction
      "action's code account '$\x7baccount\x7d' does not exist"
    eosAssert (a.authorization = []) .transaction "context-free actions cannot have authorizations"
  trx.actions.forM fun a => do
    eosAssert ((t.accounts a.account).isSome = true) .transaction
      "action's code account '$\x7baccount\x7d' does not exist"
    a.authorization.forM (validateAuthorization env t)
  eosAssert (trx.actions.flatMap (·.authorization) ≠ []) .txNoAuths
    "transaction must have at least one authorization"
  if enforceActorWhitelistBlacklist then
    checkActorList node (trx.actions.flatMap fun a => a.authorization.map (·.actor))
  else pure ()

/-- `record_transaction`. -/
def recordTransaction (id : Digest) (expire : Nat) : ExecM σ Unit := do
  let s ← get
  require (∀ e ∈ s.db.transactions, e.1 ≠ id) .txDuplicate "duplicate transaction $\x7bid\x7d"
  modifyDb fun db => { db with transactions := (id, expire) :: db.transactions }

def transactionIdNetUsage : Nat := 32

/-- The net usage that `init_for_input_trx` starts with. -/
def initialNetUsage (cfg : ChainConfig) (trx : Transaction)
    (unprunableSize prunableSize : Nat) : Nat :=
  let num := cfg.contextFreeDiscountNetUsageNum.toNat
  let den := cfg.contextFreeDiscountNetUsageDen.toNat
  let discounted :=
    if 0 < den ∧ num < den then (prunableSize * num + den - 1) / den else prunableSize
  cfg.basePerTransactionNetUsage.toNat + unprunableSize + discounted +
    if 0 < trx.delaySec then cfg.basePerTransactionNetUsage.toNat + transactionIdNetUsage else 0

/-- `init_for_input_trx`. -/
def initForInputTrx (unprunableSize prunableSize : Nat) (skipRecording : Bool) :
    ExecM σ Unit := do
  let s ← get
  whenever (s.ctx.trx.transactionExtensions ≠ []) (disallowTransactionExtensions node
    "no transaction extensions supported yet for input transactions")
  let cfg := s.db.tables.configuration
  modifyCtx fun c => { c with published := env.pendingBlockTime, isInput := true }
  whenever (node.skipTrxChecks = false) do
    raise (validateExpiration env cfg s.ctx.trx)
    raise (validateTapos env s.db.tables s.ctx.trx)
    raise (validateReferencedAccounts env node s.db.tables s.ctx.trx
      (s.ctx.enforceWhiteblacklist && node.isProducingBlock))
  init env node (initialNetUsage cfg s.ctx.trx unprunableSize prunableSize)
  whenever (skipRecording = false) (recordTransaction s.ctx.id s.ctx.trx.expiration)

/-- `init_for_deferred_trx`. -/
def initForDeferredTrx (published : Nat) : ExecM σ Unit := do
  let s ← get
  whenever (s.ctx.trx.expiration ≠ 0 ∧ s.ctx.trx.transactionExtensions ≠ [])
    (disallowTransactionExtensions node
      "no transaction extensions supported yet for deferred transactions")
  modifyCtx fun c => { c with published := published, applyContextFree := false }
  init env node 0

/-! ## Fees -/

/-- The undefined behaviour of reading the first element of an empty vector. -/
def undefinedBehaviour : FcException := ⟨.undefinedBehaviour, ""⟩

/-- `make_fee_act`. -/
def makeFeeAct (feeLimit : Asset) : ExecM σ Unit := do
  let c := (← get).ctx
  match c.trx.actions with
  | [] => throw undefinedBehaviour
  | a :: _ =>
    match a.authorization with
    | [] => throw ⟨.transaction, "authorization empty"⟩
    | p :: _ => do
        modifyCtx fun c => { c with
          feePayer := p.actor, maxFeeToPay := feeLimit, feeCosted := Asset.zero }
        require (p.actor ≠ noName) .transaction "fee_payer nil"

/-- `uint64_t` addition of a signed amount. -/
def addU64 (a : Nat) (d : Int) : Nat := ((a + d) % 2 ^ 64).toNat

/-- What one action of the transaction adds in `make_limit_by_contract`. -/
def limitByContractStep (acc : Context × Asset) (act : Action) :
    Except FcException (Context × Asset) :=
  match t.actionFees act.account act.name with
  | none => .ok acc
  | some info =>
    let c := { acc.1 with useLimitByContract := true }
    if 0 < info.cpuLimit ∨ 0 < info.netLimit ∨ 0 < info.ramLimit then
      .ok ({ c with cpuLimitByContract := addU64 c.cpuLimitByContract info.cpuLimit
                    netLimitByContract := addU64 c.netLimitByContract info.netLimit }, acc.2)
    else do
      let calcResFee ← acc.2.add info.fee
      pure (c, calcResFee)

/-- `make_limit_by_contract`. -/
def makeLimitByContract (feeExt : Asset) : ExecM σ Unit := do
  let s ← get
  let t := s.db.tables
  let c := { s.ctx with useLimitByContract := false, cpuLimitByContract := 0,
                        netLimitByContract := 0 }
  let (c, calcResFee) ← raise (c.trx.actions.foldlM (limitByContractStep t) (c, feeExt))
  let none' ← raise (calcResFee.le Asset.zero)
  if !none' && c.useLimitByContract then
    let m := calcResFee.amount.tdiv 100
    modifyCtx fun _ => { c with
      cpuLimitByContract := addU64 c.cpuLimitByContract
        (m * getNumConfigOnChain t Config.cpuPerFee 100)
      netLimitByContract := addU64 c.netLimitByContract
        (m * getNumConfigOnChain t Config.netPerFee 10000) }
  else modifyCtx fun _ => c

/-- `add_limit_by_fee`. -/
def addLimitByFee (act : Action) (c : Context) : Context :=
  match t.actionFees act.account act.name with
  | none => c
  | some info =>
    let m := info.fee.amount.tdiv 100
    let byAct : Int × Int :=
      if 0 < info.cpuLimit ∨ 0 < info.netLimit then (info.cpuLimit, info.netLimit)
      else (m * getNumConfigOnChain t Config.cpuPerFee 200,
        m * getNumConfigOnChain t Config.netPerFee 512)
    { c with useLimitByContract := true
             cpuLimitByContract := addU64 c.cpuLimitByContract byAct.1
             netLimitByContract := addU64 c.netLimitByContract byAct.2 }

/-- `get_from_extensions`. -/
def getFromExtensions {α : Type} (unpack : Bytes → Except FcException α) (trx : Transaction)
    (typ : Nat) : Except FcException (Option α) :=
  match trx.extension typ with
  | none => .ok none
  | some data => do
      let a ← unpack data
      pure (some a)

/-- `is_need_fee_action`. -/
def Context.isNeedFeeAction (c : Context) : Prop := c.feePayer ≠ noName

instance (c : Context) : Decidable c.isNeedFeeAction := by
  unfold Context.isNeedFeeAction
  infer_instance

/-- The producer whose vote age pays, where the transaction names one and
    `votage_as_fee_num` is open. -/
def voteageProducer (trx : Transaction) : Except FcException (Option Name) :=
  if isFuncHasOpen env.headBlockNum t Config.votageAsFeeNum then
    getFromExtensions env.unpackName trx voteageFeeExtension
  else .ok none

/-- `mk_fee_action`. -/
def mkFeeAction (c : Context) (fee : Asset) :
    Except FcException Action := do
  let bpName ← voteageProducer env t c.trx
  pure { account := N.eosio
         name := if bpName.isSome then N.voteagefee else N.onfee
         authorization := [⟨c.feePayer, N.active⟩]
         data := env.packFee ⟨c.feePayer, fee, bpName.getD noName⟩ }

/-! ## Scheduling -/

/-- `schedule_action`. -/
def scheduleAction (act : Action) (receiver : Name) (contextFree : Bool)
    (creatorActionOrdinal : Nat) (origin : Origin) : ExecM σ Nat := do
  let s ← get
  modifyCtx fun c => { c with actionTraces := c.actionTraces ++
    [⟨act, receiver, contextFree, creatorActionOrdinal, origin,
      getRequiredFee s.db.tables act.account act.name⟩] }
  pure (s.ctx.actionTraces.length + 1)

def Context.setFeeCosted (c : Context) (feeCosted : Asset) : Context :=
  { c with feeCosted := feeCosted }

/-- The end of `schedule_fee_action`: the fee is added up and checked against
    the limit, and the fee action enters. -/
def chargeFee (act feeAct : Action) (fee feeCosted : Asset) : ExecM σ Nat := do
  let s ← get
  modifyCtx (·.setFeeCosted feeCosted)
  whenever (s.ctx.maxFeeToPay ≠ Asset.zero) do
    let within ← raise (feeCosted.le s.ctx.maxFeeToPay)
    require (within = true) .transaction "fee costed more then limit"
  modifyCtx (addLimitByFee s.db.tables act)
  scheduleAction feeAct N.eosio false 0 (.feeAction fee)

/-- `schedule_fee_action`, with the ordinal of the fee action if there is one. -/
def scheduleFeeAction (act : Action) : ExecM σ (Option Nat) := do
  let s ← get
  if s.ctx.isNeedFeeAction then do
    let t := s.db.tables
    let fee ← raise (getRequiredFee t act.account act.name)
    let feeAct ← raise (mkFeeAction env t s.ctx fee)
    require (getNumConfigOnChain t s.ctx.feePayer (-1) ≠ 1) .transaction
      "locked developer EOSC account"
    let feeCosted ← raise (s.ctx.feeCosted.add fee)
    let ordinal ← chargeFee act feeAct fee feeCosted
    pure (some ordinal)
  else pure none

/-- An action with its fee action before it: the ordinals of both, or of the
    action alone where no fee actions are due. -/
def scheduleCharged (act : Action) (contextFree : Bool) (creatorActionOrdinal : Nat)
    (origin : Origin) : ExecM σ (List Nat) := do
  let fee ← scheduleFeeAction env act
  let ordinal ← scheduleAction act act.account contextFree creatorActionOrdinal origin
  pure (fee.toList ++ [ordinal])

/-- `add_ram_usage`. -/
def addRamUsage (account : Name) (ramDelta : Int) : ExecM σ Unit := do
  onResources (addPendingRamUsage account ramDelta)
  whenever (0 < ramDelta)
    (modifyCtx fun c => { c with validateRamUsage := account :: c.validateRamUsage })

/-- `billable_size_v<generated_transaction_object>`. -/
def billableSizeOfGenerated : Nat := 272

/-- `db.create<generated_transaction_object>`. -/
def createGenerated (g : GeneratedTransaction) : ExecM σ Unit := do
  let s ← get
  require (∀ h ∈ s.db.generated, h.trxId ≠ g.trxId ∧
    (h.sender, h.senderId) ≠ (g.sender, g.senderId))
    .uniqueness "could not insert object, most likely a uniqueness constraint was violated"
  modifyDb fun db => { db with generated := db.generated ++ [g] }

/-- `transaction_id_to_sender_id`. -/
def transactionIdToSenderId (id : Digest) : Nat :=
  id % 2 ^ 64 * 2 ^ 64 + id / 2 ^ 64 % 2 ^ 64

/-- `schedule_transaction`. -/
def scheduleTransaction : ExecM σ Unit := do
  let s ← get
  let cfg := s.db.tables.configuration
  let trx := s.ctx.trx
  whenever (trx.delaySec = 0)
    (addNetUsage node (cfg.basePerTransactionNetUsage.toNat + transactionIdNetUsage))
  createGenerated
    { trxId := s.ctx.id
      sender := noName
      senderId := transactionIdToSenderId s.ctx.id
      payer := trx.firstAuthorizer
      delayUntil := env.pendingBlockTime + s.ctx.delay
      expiration := env.pendingBlockTime + s.ctx.delay +
        cfg.deferredTrxExpirationWindow.toNat * 1000000
      published := env.pendingBlockTime
      trx := trx }
  addRamUsage trx.firstAuthorizer (billableSizeOfGenerated + env.packedSize trx : Nat)

/-! ## Settling -/

/-- The third part of the limits: what the billed accounts can pay in the
    end. -/
def finalLimits (b : Bandwidth) (c : Context) : Context :=
  let c := { c with
    netLimitDueToGreylist := c.netLimitDueToGreylist || b.greylistedNet
    cpuLimitDueToGreylist := c.cpuLimitDueToGreylist || b.greylistedCpu }
  let c := if b.accountNetLimit.toNat ≤ c.netLimit then
      { c with netLimit := b.accountNetLimit.toNat, netLimitDueToBlock := false }
    else c
  let c := if b.accountCpuLimit ≤ c.objectiveDurationLimit then
      { c with objectiveDurationLimit := b.accountCpuLimit
               billingTimerExceptionCode := .txCpuUsageExceeded }
    else c
  { c with netUsage := (c.netUsage + 7) / 8 * 8, eagerNetLimit := c.netLimit }

/-- The checks of `finalize` on the limits that fees bought. -/
def checkLimitByContract (c : Context) : Except FcException Unit :=
  if c.useLimitByContract then do
    eosAssert (c.billedCpuTimeUs ≤ c.cpuLimitByContract) .txCpuUsageExceeded
      "cpu limit by contract $\x7bc\x7d $\x7bm\x7d"
    eosAssert (c.netUsage ≤ c.netLimitByContract) .txNetUsageExceeded
      "net limit by contract $\x7bc\x7d $\x7bm\x7d"
  else .ok ()

/-- `update_permission_usage` of one authorization. -/
def usePermission (auth : PermissionLevel) : ExecM σ Unit := do
  let rest ← raise (env.updatePermissionUsage auth (← get).db.tables.rest)
  modifyDb fun db => { db with tables := { db.tables with rest := rest } }

/-- `finalize`. -/
def finalize : ExecM σ Unit := do
  let c := (← get).ctx
  require (c.isInitialized = true) .transaction "must first initialize"
  whenever (c.isInput = true) ((c.trx.actions.flatMap (·.authorization)).forM (usePermission env))
  (flatSet c.validateRamUsage).forM fun a => do
    let t := (← get).db.tables
    onResources (verifyAccountRamUsage a (getAccountRamLimit t a))
  let r := (← get).db.resources
  let b ← raise (maxBandwidthBilledAccountsCanPay node false r c.billToAccounts)
  modifyCtx (finalLimits b)
  checkNetUsage node
  let _ ← updateBilledCpuTime
  let c := (← get).ctx
  validateCpuUsageToBill node c.billedCpuTimeUs true
  raise (checkLimitByContract c)
  onResources (addTransactionUsage c.billToAccounts c.billedCpuTimeUs c.netUsage env.pendingSlot)

end TrxContext
