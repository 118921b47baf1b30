import EosForce.TrxContextProofs

/-! # `apply_context`

    Executing one action: native handler and contract code for the first
    receiver and then for every account notified, after that the context-free
    inline actions and the inline actions that the code sent, each with its
    own notifications and inline actions.  The depth of the recursion is
    bounded by a 16-bit number of the chain configuration. -/

namespace ApplyContext

open ChainTypes TrxTypes Effect Resource Database FeeRule TrxContext

variable {σ : Type}

/-- `apply_context`, less what it shares with the transaction. -/
structure Apply where
  receiver : Name
  actionOrdinal : Nat
  act : Action
  contextFree : Bool
  privileged : Bool := false
  notified : List (Name × Nat) := []
  inlineActions : List Nat := []
  cfaInlineActions : List Nat := []
  accountRamDeltas : List (Name × Int) := []

/-- `has_authorization`. -/
def Apply.hasAuthorization (a : Apply) (account : Name) : Bool :=
  a.act.authorization.any fun p => p.actor = account

/-- `require_authorization`. -/
def requireAuthorization (a : Apply) (account : Name) : ExecM σ Unit :=
  require (a.hasAuthorization account = true) .missingAuth "missing authority of $\x7baccount\x7d"

/-- Adding to the RAM delta of one account, in the order of a `flat_set`. -/
def addDelta (account : Name) (d : Int) : List (Name × Int) → List (Name × Int)
  | [] => [(account, d)]
  | (a, v) :: rest =>
    if a = account then (a, v + d) :: rest
    else if account.value < a.value then (account, d) :: (a, v) :: rest
    else (a, v) :: addDelta account d rest

/-- `add_ram_usage`. -/
def addRamUsage (a : Apply) (account : Name) (ramDelta : Int) : ExecM σ Apply := do
  TrxContext.addRamUsage account ramDelta
  pure { a with accountRamDeltas := addDelta account ramDelta a.accountRamDeltas }

variable (env : Env σ) (node : Node)

variable (a : Apply)

/-- `update_db_usage`. -/
def updateDbUsage (payer : Name) (delta : Int) :
    ExecM σ Apply := do
  whenever (0 < delta ∧
      ¬ (a.privileged = true ∨ payer = a.receiver ∨ env.features.ramRestrictions = true)) do
    require (node.isRamBillingInNotifyAllowed = true ∨ a.receiver = a.act.account)
      .subjectiveBlockProduction "Cannot charge RAM to other accounts during notify."
    requireAuthorization a payer
  addRamUsage a payer delta

/-- `require_recipient`. -/
def requireRecipient (recipient : Name) : ExecM σ Apply := do
  if recipient ∈ a.notified.map (·.1) then pure a
  else do
    let ordinal ← scheduleAction a.act recipient false a.actionOrdinal .notification
    pure { a with notified := a.notified ++ [(recipient, ordinal)] }

/-! ## Inline actions -/

/-- A call of `check_authorization` with `checktime` as its callback. -/
def checkAuthorization (env : Env σ) (actions : List Action) (keys : List PublicKey)
    (provided : List PermissionLevel) (delay : Int) (satisfied : List PermissionLevel) :
    ExecM σ Unit := do
  let t := (← get).db.tables
  let result := env.checkAuthorization t actions keys provided delay satisfied
  (List.replicate result.1 ()).forM fun _ => checktime
  raise result.2

/-- What becomes of a failed authorization check of something that a contract
    sent.  Where sending to oneself is exempt, a producer refuses it on its
    own account and a validator lets it pass. -/
def authorizeSent (selfExempt : Bool) (refusal : FcException) (check : ExecM σ Unit) :
    ExecM σ Unit := do
  match ← attempt some check with
  | .ok _ => pure ()
  | .error e =>
    if !selfExempt then throw e
    else if node.isProducingBlock then throw refusal
    else pure ()

/-- The checks of `execute_inline` on one authorization. -/
def validateInlineAuthorization (t : Tables σ) (auth : PermissionLevel) :
    Except FcException Unit := do
  eosAssert ((t.accounts auth.actor).isSome = true) .actionValidate
    "inline action's authorizing actor $\x7baccount\x7d does not exist"
  eosAssert (env.findPermission t auth = true) .actionValidate
    "inline action's authorizations include a non-existent permission: $\x7bpermission\x7d"

/-- The actions that no contract may send inline after block 4470000. -/
def noCall (x : Action) : Prop :=
  x.account = N.eosio ∧ (x.name = N.onfee ∨ x.name = N.voteagefee ∨ x.name = N.onblock)

instance (x : Action) : Decidable (noCall x) := by
  unfold noCall
  infer_instance

/-- `execute_inline`. -/
def executeInline (x : Action) : ExecM σ Apply := do
  let s ← get
  let t := s.db.tables
  require ((t.accounts x.account).isSome = true) .actionValidate
    "inline action's code account $\x7baccount\x7d does not exist"
  require (4470000 < env.headBlockNum → ¬ noCall x) .actionValidate "no call"
  let selfExempt := !env.features.restrictActionToSelf && decide (x.account = a.receiver)
  let inherit := selfExempt && decide (a.receiver = a.act.account) && node.isProducingBlock
  raise (x.authorization.forM (validateInlineAuthorization env t))
  whenever (s.ctx.enforceWhiteblacklist = true ∧ node.isProducingBlock = true)
    (raise (checkActorList node (x.authorization.map (·.actor))))
  whenever (node.skipAuthCheck = false ∧ a.privileged = false)
    (authorizeSent node selfExempt
      ⟨.subjectiveBlockProduction, "Authorization failure with inline action sent to self"⟩
      (checkAuthorization env [x] [] [⟨a.receiver, N.eosioCode⟩]
        (env.pendingBlockTime - s.ctx.published)
        (if inherit then x.authorization.filter (· ∈ a.act.authorization) else [])))
  let ordinals ← scheduleCharged env x false a.actionOrdinal .inlined
  pure { a with inlineActions := a.inlineActions ++ ordinals }

/-- `execute_context_free_inline`. -/
def executeContextFreeInline (x : Action) : ExecM σ Apply := do
  let t := (← get).db.tables
  require ((t.accounts x.account).isSome = true) .actionValidate
    "inline action's code account $\x7baccount\x7d does not exist"
  require (x.authorization = []) .actionValidate "context-free actions cannot have authorizations"
  let ordinals ← scheduleCharged env x true a.actionOrdinal .contextFreeInline
  pure { a with cfaInlineActions := a.cfaInlineActions ++ ordinals }

/-! ## Deferred transactions -/

/-- The generation context of a deferred transaction: checked where the
    transaction brings one, added where it does not. -/
def generationContext (trxId : Digest) (senderId : Nat) (trx : Transaction) :
    List GenerationContext → Except FcException Transaction
  | [] => pure { trx with transactionExtensions :=
      (0, env.packGenerationContext ⟨trxId, senderId, a.receiver⟩) :: trx.transactionExtensions }
  | context :: more => do
      eosAssert (more.length = 0) .invalidTransactionExtension
        "only the deferred_transaction_generation_context extension is currently supported for deferred transactions"
      eosAssert (context.sender = a.receiver) .illFormedDeferredTransactionGenerationContext
        "deferred transaction generaction context contains mismatching sender"
      eosAssert (context.senderId = senderId) .illFormedDeferredTransactionGenerationContext
        "deferred transaction generaction context contains mismatching sender_id"
      eosAssert (context.senderTrxId = trxId) .illFormedDeferredTransactionGenerationContext
        "deferred transaction generaction context contains mismatching sender_trx_id"
      pure trx

/-- The part of `schedule_deferred_transaction` that settles the header and
    the extensions of the transaction. -/
def prepareDeferred (trxId : Digest) (senderId : Nat) (trx : Transaction) :
    Except FcException Transaction := do
  if env.features.noDuplicateDeferredId then do
    let exts ← env.extractExtensions trx
    let trx ← generationContext env a trxId senderId trx exts
    pure { trx with expiration := 0, refBlockNum := 0, refBlockPrefix := 0 }
  else
    pure { trx with
      expiration := (env.pendingBlockTime + 999999) / 1000000
      refBlockNum := env.refBlockNum
      refBlockPrefix := env.refBlockPrefix }

/-- The authorization checks of `schedule_deferred_transaction`. -/
def authorizeDeferred (payer : Name) (trx : Transaction) : ExecM σ Unit := do
  whenever (payer ≠ a.receiver) do
    if env.features.ramRestrictions then do
      require (a.receiver = a.act.account) .actionValidate
        "cannot bill RAM usage of deferred transactions to another account within notify context"
      require (a.hasAuthorization payer = true) .actionValidate
        "cannot bill RAM usage of deferred transaction to another account that has not authorized the action: $\x7bpayer\x7d"
    else requireAuthorization a payer
  authorizeSent node
    (!env.features.restrictActionToSelf && trx.actions.all fun x => x.account = a.receiver)
    ⟨.subjectiveBlockProduction,
      "Authorization failure with sent deferred transaction consisting only of actions to self"⟩
    (checkAuthorization env trx.actions [] [⟨a.receiver, N.eosioCode⟩]
      (trx.delaySec * 1000000 : Nat) [])

/-- `db.remove` of the generated transaction of one sender and sender id. -/
def removeGenerated (db : Db σ) (sender : Name) (senderId : Nat) : Db σ :=
  { db with generated := db.generated.filter fun g =>
      ¬ (g.sender = sender ∧ g.senderId = senderId) }

def findGenerated (db : Db σ) (sender : Name) (senderId : Nat) : Option GeneratedTransaction :=
  db.generated.find? fun g => g.sender = sender ∧ g.senderId = senderId

/-- The RAM of a replaced transaction: refunded, or noted for a correction. -/
def refundReplaced (payer : Name) (bytes : Nat) : ExecM σ Apply :=
  if env.features.replaceDeferred then addRamUsage a payer (-(bytes : Int))
  else do
    modifyDb fun db => { db with tables := { db.tables with
      rest := env.addToRamCorrection payer bytes db.tables.rest } }
    pure a

/-- What an existing transaction with the same sender id is replaced by: the
    id that the new object gets. -/
def replaceGenerated (old : GeneratedTransaction) (trx : Transaction) (replaceExisting : Bool) :
    ExecM σ (Apply × Digest) := do
  let replaceDeferred := env.features.replaceDeferred
  require (replaceExisting = true) .deferredTxDuplicate
    "deferred transaction with the same sender_id and payer already exists"
  require (replaceDeferred = true ∨ node.isProducingBlock = false ∨
      node.disableAllSubjectiveMitigations = true) .subjectiveBlockProduction
    "Replacing a deferred transaction is temporarily disabled."
  let a ← refundReplaced env a old.payer (billableSizeOfGenerated + env.packedSize old.trx)
  modifyDb fun db => removeGenerated db old.sender old.senderId
  pure (a, if replaceDeferred then env.trxId trx else old.trxId)

/-- The id of a new deferred transaction, with whatever had its sender id
    replaced. -/
def claimSenderId (senderId : Nat) (trx : Transaction) (replaceExisting : Bool) :
    ExecM σ (Apply × Digest) := do
  match findGenerated (← get).db a.receiver senderId with
  | some old => replaceGenerated env node a old trx replaceExisting
  | none => pure (a, env.trxId trx)

/-- `schedule_deferred_transaction`. -/
def scheduleDeferredTransaction (senderId : Nat) (payer : Name) (trx : Transaction)
    (replaceExisting : Bool) : ExecM σ Apply := do
  let s ← get
  require (trx.contextFreeActions = []) .cfaInsideGeneratedTx
    "context free actions are not currently allowed in generated transactions"
  raise (validateReferencedAccounts env node s.db.tables trx
    (s.ctx.enforceWhiteblacklist && node.isProducingBlock &&
      !senderAvoidsWhitelistBlacklistEnforcement node a.receiver))
  let trx ← raise (prepareDeferred env a s.ctx.id senderId trx)
  let cfg := s.db.tables.configuration
  addNetUsage node (cfg.basePerTransactionNetUsage.toNat + transactionIdNetUsage)
  whenever (node.skipAuthCheck = false ∧ a.privileged = false)
    (authorizeDeferred env node a payer trx)
  let r ← claimSenderId env node a senderId trx replaceExisting
  createGenerated
    { trxId := r.2
      sender := a.receiver
      senderId := senderId
      payer := payer
      delayUntil := env.pendingBlockTime + trx.delaySec * 1000000
      expiration := env.pendingBlockTime + trx.delaySec * 1000000 +
        cfg.deferredTrxExpirationWindow.toNat * 1000000
      published := env.pendingBlockTime
      trx := trx }
  require (env.features.ramRestrictions = true ∨ node.isRamBillingInNotifyAllowed = true ∨
      a.receiver = a.act.account ∨ a.receiver = payer ∨ a.privileged = true)
    .subjectiveBlockProduction "Cannot charge RAM to other accounts during notify."
  addRamUsage r.1 payer (billableSizeOfGenerated + env.packedSize trx : Nat)

/-- `cancel_deferred_transaction`. -/
def cancelDeferredTransaction (senderId : Nat) (sender : Name) :
    ExecM σ Apply := do
  match findGenerated (← get).db sender senderId with
  | none => pure a
  | some g => do
      let a ← addRamUsage a g.payer
        (-((billableSizeOfGenerated + env.packedSize g.trx : Nat) : Int))
      modifyDb fun db => removeGenerated db sender senderId
      pure a

/-! ## Code -/

/-- One call of contract code. -/
def hostCall : HostCall σ → ExecM σ Apply
  | .write f => do
      modifyDb fun db => { db with tables := f db.tables }
      pure a
  | .checktime => do
      checktime
      pure a
  | .addRamUsage account delta => addRamUsage a account delta
  | .updateDbUsage payer delta => updateDbUsage env node a payer delta
  | .validateRamUsage account => do
      modifyCtx fun c => { c with validateRamUsage := account :: c.validateRamUsage }
      pure a
  | .initializeAccount account => do
      onResources (initializeAccount account)
      pure a
  | .setAccountLimits account w => do
      onResources (setAccountLimits account w)
      pure a
  | .checkSignatureSize n => do
      require (node.isProducingBlock = true → n ≤ node.maximumVariableSignatureLength)
        .sigVariableSizeLimit
        "signature variable length component size greater than subjective maximum"
      pure a
  | .checkKeyList key => do
      let c := (← get).ctx
      require (c.enforceWhiteblacklist = true → node.isProducingBlock = true →
          key ∉ node.keyBlacklist) .keyBlacklist
        "public key '$\x7bkey\x7d' is on the key blacklist"
      pure a
  | .preactivateFeature digest => do
      require (digest ∉ node.unrecognizedFeatures)
        (if node.isProducingBlock then .subjectiveBlockProduction else .protocolFeatureBadBlock)
        "protocol feature with digest '$\x7bdigest\x7d' is unrecognized"
      pure a
  | .requireRecipient recipient => requireRecipient a recipient
  | .executeInline x => executeInline env node a x
  | .executeContextFreeInline x => executeContextFreeInline env a x
  | .scheduleDeferred senderId payer trx replace =>
    scheduleDeferredTransaction env node a senderId payer trx replace
  | .cancelDeferred senderId sender => cancelDeferredTransaction env a senderId sender
  | .fail e => throw e

/-- A native handler. -/
inductive Handler (σ : Type) where
  | fee (apply : FeeParameter → EStateM FcException (Tables σ) Unit)
  | program (p : Program σ)

/-- `find_apply_handler`. -/
def findApplyHandler (receiver scope act : Name) : Option (Handler σ) :=
  if receiver = N.eosio ∧ scope = N.eosio ∧ act = N.onfee then some (.fee applyEosioOnfee)
  else if receiver = N.eosio ∧ scope = N.eosio ∧ act = N.voteagefee then
    some (.fee (applyEosioVoteagefee env.headBlockNum))
  else (env.native receiver scope act).map .program

/-- `get_action_trace`. -/
def getActionTrace (ordinal : Nat) : ExecM σ ActionTrace := do
  match ordinal, (← get).ctx.actionTraces[ordinal - 1]? with
  | _ + 1, some t => pure t
  | _, _ => throw ⟨.transaction,
      "action_ordinal $\x7bordinal\x7d is outside allowed range [1,$\x7bmax\x7d]"⟩

/-- `get_sender`. -/
def getSender (traces : List ActionTrace) (ordinal : Nat) : Name :=
  match traces[ordinal - 1]? with
  | none => noName
  | some t =>
    if 0 < t.creatorActionOrdinal then
      ((traces[t.creatorActionOrdinal - 1]?).map (·.receiver)).getD noName
    else noName

/-- `db.get<account_metadata_object>`. -/
def getAccount (account : Name) : ExecM σ AccountMetadata := do
  match (← get).db.tables.accounts account with
  | some m => pure m
  | none => throw ⟨.keyNotFound, "unknown key"⟩

/-- The lists that `exec_one` checks before it runs code. -/
def checkLists : ExecM σ Unit := do
  let c := (← get).ctx
  whenever (c.enforceWhiteblacklist = true ∧ node.isProducingBlock = true) do
    raise (checkContractList node a.receiver)
    raise (checkActionList node a.act.account a.act.name)

/-- Contract code runs as the calls it makes. -/
def runProgram (p : Program σ) : ExecM σ Apply := do
  let s ← get
  let calls := p s.db
    { trx := s.ctx.trx
      trxId := s.ctx.id
      receiver := a.receiver
      act := a.act
      contextFree := a.contextFree
      sender := getSender s.ctx.actionTraces a.actionOrdinal }
  calls.foldlM (hostCall env node) a

/-- The native handler of an action, if there is one. -/
def runNative : ExecM σ Apply := do
  match findApplyHandler env a.receiver a.act.account a.act.name with
  | none => pure a
  | some handler => do
      checkLists node a
      match handler with
      | .program p => runProgram env node a p
      | .fee apply => do
          let data ← raise (env.unpackFee a.act.data)
          onTables (apply data)
          pure a

/-- Whether the code of the receiver is run for an action. -/
def runsCode (features : Features) (a : Apply) (codeHash : Digest) : Prop :=
  ¬ a.act.isFee ∧ codeHash ≠ 0 ∧
    (¬ (a.act.account = N.eosio ∧ a.act.name = N.setcode ∧ a.receiver = N.eosio) ∨
      features.forwardSetcode = true)

instance (features : Features) (a : Apply) (codeHash : Digest) :
    Decidable (runsCode features a codeHash) := by
  unfold runsCode
  infer_instance

/-- The contract of the receiver. -/
def runWasm : ExecM σ Apply := do
  let m ← getAccount a.receiver
  if runsCode env.features a m.codeHash then do
    checkLists node a
    runProgram env node a (env.wasm m.codeHash)
  else pure a

/-- The check of `exec_one` on the RAM that an unprivileged contract billed to
    others; the time is read at every tenth account. -/
def checkRamDeltas (a : Apply) : Nat → List (Name × Int) → ExecM σ Unit
  | _, [] => pure ()
  | counter, (account, delta) :: rest => do
      whenever (counter = 10) checktime
      whenever (0 < delta ∧ account ≠ a.receiver) do
        require (a.receiver = a.act.account) .unauthorizedRamUsageIncrease
          "unprivileged contract cannot increase RAM usage of another account within a notify context: $\x7baccount\x7d"
        require (a.hasAuthorization account = true) .unauthorizedRamUsageIncrease
          "unprivileged contract cannot increase RAM usage of another account that has not authorized the action: $\x7baccount\x7d"
      checkRamDeltas a ((if counter = 10 then 0 else counter) + 1) rest

/-- `next_auth_sequence` for one authorization, entered into the map of the
    receipt. -/
def nextAuthSequence (seqs : List (Name × Nat)) (auth : PermissionLevel) :
    ExecM σ (List (Name × Nat)) := do
  let m ← getAccount auth.actor
  let m' := { m with authSequence := m.authSequence + 1 }
  modifyDb fun db => { db with tables := db.tables.setAccount auth.actor m' }
  pure (seqs.filter (fun e => e.1 ≠ auth.actor) ++ [(auth.actor, m'.authSequence)])

/-- The part of `exec_one` after the code: sequence numbers and the receipt. -/
def recordReceipt : ExecM σ Unit := do
  modifyDb fun db => { db with globalActionSequence := db.globalActionSequence + 1 }
  let m ← getAccount a.receiver
  let m' := { m with recvSequence := m.recvSequence + 1 }
  modifyDb fun db => { db with tables := db.tables.setAccount a.receiver m' }
  let first ← getAccount a.act.account
  let globalSequence := (← get).db.globalActionSequence
  let authSequence ← a.act.authorization.foldlM nextAuthSequence []
  let t ← getActionTrace a.actionOrdinal
  modifyCtx fun c => { c with executed := c.executed ++
    [{ receipt :=
        { receiver := a.receiver
          actDigest := env.actDigest a.act
          globalSequence := globalSequence
          recvSequence := m'.recvSequence
          authSequence := authSequence
          codeSequence := first.codeSequence
          abiSequence := first.abiSequence }
       trace := t }] }

/-- The part of `exec_one` inside its `try`: whatever it throws leaves as an
    `fc::exception`. -/
def runCode : ExecM σ Apply :=
  mapError FcException.asFc do
    let m ← getAccount a.receiver
    let a ← runNative env node { a with privileged := m.privileged }
    let a ← runWasm env node a
    whenever (a.privileged = false ∧ env.features.ramRestrictions = true)
      (checkRamDeltas a 0 a.accountRamDeltas)
    pure a

/-- `exec_one`. -/
def execOne : ExecM σ Apply := do
  let a ← runCode env node a
  recordReceipt env a
  pure { a with accountRamDeltas := [] }

/-! ## Execution -/

/-- The loop of `exec` over the accounts notified.  Names are 64-bit numbers
    and no account is notified twice, so the bound is never met. -/
def execNotified (env : Env σ) (node : Node) : Nat → Nat → Apply → ExecM σ Apply
  | 0, _, a => pure a
  | n + 1, i, a =>
    match a.notified[i]? with
    | none => pure a
    | some (receiver, ordinal) => do
        let a ← execOne env node { a with receiver := receiver, actionOrdinal := ordinal }
        execNotified env node n (i + 1) a

/-- `apply_context::exec` at a recursion depth, given how actions one level
    deeper are executed. -/
def execWith (deeper : Nat → ExecM σ Unit) (recurseDepth : Nat) (ordinal : Nat) : ExecM σ Unit := do
  let t ← getActionTrace ordinal
  let a ← execOne env node
    { receiver := t.receiver
      actionOrdinal := ordinal
      act := t.act
      contextFree := t.contextFree
      notified := [(t.receiver, ordinal)] }
  let a ← execNotified env node (2 ^ 64) 1 a
  let cfg := (← get).db.tables.configuration
  require (a.cfaInlineActions ++ a.inlineActions ≠ [] →
      recurseDepth < cfg.maxInlineActionDepth.toNat) .transaction
    "max inline action depth per transaction reached"
  a.cfaInlineActions.forM deeper
  a.inlineActions.forM deeper

/-- The greatest recursion depth: `max_inline_action_depth` is a `uint16_t`. -/
def maxDepth : Nat := 2 ^ 16 - 1

/-- `execute_action`, by how many levels may still follow.  On the last level
    the check on the depth fails as soon as an inline action was sent. -/
def executeAction (env : Env σ) (node : Node) : Nat → Nat → ExecM σ Unit
  | 0, ordinal => execWith env node (fun _ => pure ()) maxDepth ordinal
  | n + 1, ordinal => execWith env node (executeAction env node n) (maxDepth - (n + 1)) ordinal

/-- One original action of a transaction. -/
def scheduleOriginal (contextFree : Bool) (act : Action) : ExecM σ Unit := do
  let _ ← scheduleCharged env act contextFree 0 (if contextFree then .contextFree else .transaction)

/-- `transaction_context::exec`. -/
def exec : ExecM σ Unit := do
  let c := (← get).ctx
  require (c.isInitialized = true) .transaction "must first initialize"
  whenever (c.applyContextFree = true) (c.trx.contextFreeActions.forM (scheduleOriginal env true))
  whenever (c.delay = 0) (c.trx.actions.forM (scheduleOriginal env false))
  let numOriginalActionsToExecute := (← get).ctx.actionTraces.length
  (List.range' 1 numOriginalActionsToExecute).forM (executeAction env node maxDepth)
  whenever (c.delay ≠ 0) (scheduleTransaction env node)

end ApplyContext
