import EosForce.ContractTablesProofs
import EosForce.PermissionStoreProofs
import EosForce.DatabaseProofs

/-! # The native actions and what a block does to the tables

    The chain as a machine over its tables.  Genesis is a list of steps that
    creates the first accounts, contracts and rows.  After it come the native
    actions, the operations of contracts, deferred transactions, and what the
    controller does at the start of a block.  A step that throws is undone. -/

namespace NativeActions

open ChainTypes TrxTypes Effect Resource Authority RowTable StateTables ContractTables
  PermissionStore

/-! ## Names -/

def tokenAccountName : Name := ⟨0x5530ea033482a600⟩
def eoslockAccountName : Name := ⟨0x5530ea0234440000⟩
def msigAccountName : Name := ⟨0x5530ea0258730000⟩
def nullAccountName : Name := ⟨0x5530ea027a8c4000⟩
def producersAccountName : Name := ⟨0x5530ea02b7a27000⟩
def chainConfigName : Name := ⟨0x5d2e8501149adcc0⟩
def majorityProducersPermissionName : Name := ⟨0xade89048cfa5c000⟩
def minorityProducersPermissionName : Name := ⟨0xade89049d3a5c000⟩

def accountsTable : Name := ⟨0x32114d4f38000000⟩
def bpsTable : Name := ⟨0x3d70000000000000⟩
def chainstatusTable : Name := ⟨0x434ce9e326ceb000⟩
def statTable : Name := ⟨0xc64d900000000000⟩
def vote4ramsumTable : Name := ⟨0xdd32a25cd2c6a400⟩

namespace FuncTyp

def voteForRam : Name := ⟨0x582e691374ca8000⟩
def onfeeAction : Name := ⟨0x582935a946464000⟩
def useSystem01 : Name := ⟨0x5831ec6552080000⟩
def useMsig : Name := ⟨0x5825873000000000⟩
def useEosioProds : Name := ⟨0x582b7a2700000000⟩
def createEosioAccount : Name := ⟨0x58154c3a80000000⟩
def createProdsAccount : Name := ⟨0x58115bd120000000⟩

end FuncTyp

def freeRamPerAccount : Name := ⟨0xbab005dd4ab9a400⟩
def ramRentBPerEos : Name := ⟨0xbab00b9a5754f200⟩

/-! ## Configuration on the chain -/

/-- `get_num_config_on_chain`. -/
def getNumConfigOnChain (s : State) (typ : Name) (default : Int) : Int :=
  (s.configNums typ).getD default

/-- `set_num_config_on_chain`, and `set_config_on_chain` as far as it is read. -/
def setNumConfigOnChain (typ : Name) (num : Int) (s : State) : State :=
  { s with configNums := fun t => if t = typ then some num else s.configNums t }

/-- `is_func_has_open`. -/
def isFuncHasOpen (s : State) (headNum : Nat) (typ : Name) (defaultOpenBlock : Nat) : Prop :=
  let openNum := getNumConfigOnChain s typ (-1)
  (0 ≤ openNum ∧ openNum ≤ headNum) ∨
    (openNum = -1 ∧ defaultOpenBlock ≠ 0 ∧ defaultOpenBlock ≤ headNum)

instance (s : State) (headNum : Nat) (typ : Name) (d : Nat) :
    Decidable (isFuncHasOpen s headNum typ d) :=
  inferInstanceAs (Decidable (_ ∨ _))

/-- `is_func_open_in_curr_block`. -/
def isFuncOpenInCurrBlock (s : State) (headNum : Nat) (typ : Name) (defaultOpenBlock : Nat) :
    Prop :=
  let openNum := getNumConfigOnChain s typ (-1)
  if openNum < 0 then 0 < defaultOpenBlock ∧ headNum = defaultOpenBlock else headNum = openNum

instance (s : State) (headNum : Nat) (typ : Name) (d : Nat) :
    Decidable (isFuncOpenInCurrBlock s headNum typ d) := by
  unfold isFuncOpenInCurrBlock
  infer_instance

/-! ## Rows that native code stores -/

/-- Little endian. -/
def packU64 (n : UInt64) : Bytes :=
  (List.range 8).map fun i => UInt8.ofNat (n.toNat / 256 ^ i)

def packU32 (n : UInt32) : Bytes :=
  (List.range 4).map fun i => UInt8.ofNat (n.toNat / 256 ^ i)

/-- The value of `CORE_SYMBOL`. -/
def coreSymbolValue : UInt64 := 0x534f4504

def packAsset (amount : UInt64) : Bytes := packU64 amount ++ packU64 coreSymbolValue

/-- `memory_db::account_info`. -/
def accountInfo (name : Name) (available : UInt64) : Bytes :=
  packU64 name.value ++ packAsset available

/-- `memory_db::eoslock_account`, in the symbol EOSLOCK. -/
def eoslockAccount (owner : Name) (balance : UInt64) : Bytes :=
  packU64 owner.value ++ packU64 balance ++ packU64 0x4b434f4c534f4504

/-- `memory_db::chain_status`. -/
def chainStatus (name : Name) (emergency : Bool) : Bytes :=
  packU64 name.value ++ [if emergency then 1 else 0]

/-- `memory_db::currency_stats`. -/
def currencyStats (supply maxSupply : UInt64) (issuer : Name) : Bytes :=
  packAsset supply ++ packAsset maxSupply ++ packU64 issuer.value

/-- The length of a string, seven bits in a byte. -/
def packLength : Nat → Nat → Bytes
  | 0, _ => []
  | fuel + 1, n =>
    if n < 128 then [UInt8.ofNat n] else UInt8.ofNat (n % 128 + 128) :: packLength fuel (n / 128)

/-- `memory_db::bp_info`. -/
def bpInfo (name : Name) (producerKey : PublicKey) (commissionRate : UInt32) (url : Bytes) :
    Bytes :=
  packU64 name.value ++ producerKey ++ packU32 commissionRate ++ packU64 0 ++ packAsset 0 ++
    packU64 0 ++ packU32 0 ++ packLength 5 url.length ++ url ++ [0]

/-- `memory_db::find_or_create_table`: nobody is charged. -/
def memoryFindOrCreateTable (code scope table payer : Name) : StateM Nat := do
  let s ← get
  match findTable s code scope table with
  | some t => pure t.id
  | none => createTable code scope table payer

/-- `memory_db::insert`: nobody is charged. -/
def memoryInsert (code scope table payer : Name) (id : UInt64) (data : Bytes) : StateM Unit := do
  let tId ← memoryFindOrCreateTable code scope table payer
  require (payer ≠ noName) .invalidTablePayer "must specify a valid account to pay for new record"
  createRow ⟨.keyValue, tId, id, payer, data⟩
  modifyCount tId fun count => addU32 count 1

/-- The row that `memory_db::get` reads. -/
def memoryFind (s : State) (code scope table : Name) (id : UInt64) : Option ContractRow :=
  (findTable s code scope table).bind fun t => s.rows.find (.keyValue, t.id, id)

/-! ## Accounts -/

/-- The creation of an account and its metadata. -/
def createAccount (account : Account) : StateM Unit := do
  let s ← get
  if h : s.accounts.find account.name = none then
    set { s with accounts := s.accounts.insert account h }
  else throw ⟨.uniqueness,
    "could not insert object, most likely a uniqueness constraint was violated"⟩

/-- `resource_limits_manager::initialize_account`. -/
def initializeAccount (a : Name) : StateM Unit := do
  let s ← get
  require (s.resources.usage a = none ∧ s.resources.weights a = none) .uniqueness
    "could not insert object, most likely a uniqueness constraint was violated"
  set { s with
    resources := { setUsage s.resources a {} with
      weights := fun b => if b = a then some {} else s.resources.weights b } }

/-- What an account with these authorities is charged when it is created. -/
def newAccountBytes (owner active : Auth) : Nat :=
  overheadPerAccount + 2 * permissionSize + authSize owner + authSize active

variable (ctx : ActionContext)

/-- The owner and the active permission of a new account. -/
def createPermissions (name : Name) (owner active : Auth) (time : Nat) :
    StateM Unit := do
  let ownerId ← createPermission ctx name ownerName 0 owner time
  let _ ← createPermission ctx name activeName ownerId active time

structure NewAccount where
  creator : Name
  name : Name
  owner : Auth
  active : Auth

/-- What `apply_eosio_newaccount` checks first. -/
def checkNewaccount (create : NewAccount) : StateM Unit := do
  requireAuthorization ctx create.creator
  require (validate create.owner = true) .actionValidate "Invalid owner authority"
  require (validate create.active = true) .actionValidate "Invalid active authority"
  require (create.name ≠ noName) .actionValidate "account name cannot be empty"
  require ((nameToString create.name).length ≤ 12) .actionValidate
    "account names can only be 12 chars long"
  let creator ← getAccount create.creator
  require (creator.privileged = false) .actionValidate "not support privileged accounts"
  let s ← get
  require (isFuncHasOpen s ctx.headBlockNum FuncTyp.onfeeAction 0 →
      create.creator ≠ systemAccountName → create.creator ≠ producersAccountName →
      create.creator ≠ chainConfigName → ¬ startsWith "force." create.name) .actionValidate
    "only privileged accounts can have names that start with 'force.'"
  require (s.accounts.find create.name = none) .accountNameExists
    "Cannot create account named $\x7bname\x7d, as that name is already taken"

/-- `apply_eosio_newaccount`. -/
def newaccount (create : NewAccount) : StateM Unit := do
  checkNewaccount ctx create
  createAccount { name := create.name, creationDate := ctx.pendingBlockTime }
  memoryInsert systemAccountName systemAccountName accountsTable create.name create.name.value
    (accountInfo create.name 0)
  validateAuthorityPrecondition ctx create.owner
  validateAuthorityPrecondition ctx create.active
  createPermissions ctx create.name create.owner create.active 0
  initializeAccount create.name
  addRamUsage create.name (newAccountBytes create.owner create.active : Nat)

/-! ## Code -/

/-- The virtual machine: the hash of code and the checks that code has to
    pass.  No code is known that hashes to the digest with all bits zero,
    which stands for no code. -/
structure Vm where
  sha256 : Bytes → Digest
  nonzero : ∀ code, sha256 code ≠ 0
  validate : Bytes → Except FcException Unit

/-- One more account refers to the code. -/
def acquireCode (hash : Digest) (code : Bytes) (firstBlockUsed : Nat) (s : State) : State :=
  if h : s.codes.find (hash, 0, 0) = none then
    { s with codes := s.codes.insert ⟨hash, code, 1, firstBlockUsed, 0, 0⟩ h }
  else
    { s with
      codes := s.codes.modify (hash, 0, 0)
        (fun o => { o with codeRefCount := o.codeRefCount + 1 }) fun _ => rfl }

/-- One account less refers to the code; the last one takes it away. -/
def releaseCode (old : CodeObject) (s : State) : State :=
  if old.codeRefCount = 1 then { s with codes := s.codes.erase old.key }
  else
    { s with
      codes := s.codes.modify old.key
        (fun o => { o with codeRefCount := o.codeRefCount - 1 }) fun _ => rfl }

structure SetCode where
  account : Name
  vmtype : Nat
  vmversion : Nat
  code : Bytes

/-- The release of the code that an account has; its size. -/
def releaseOldCode (account : Account) (newHash : Digest) : StateM Nat :=
  if account.codeHash ≠ 0 then do
    let s ← get
    let old ← orThrow (s.codes.find account.codeKey) ⟨.keyNotFound, "unknown key"⟩
    require (old.codeHash ≠ newHash) .setExactCode
      "contract is already running this version of code"
    set (releaseCode old s)
    pure (old.code.length * setcodeRamBytesMultiplier)
  else pure 0

variable (account : Name)

/-- The account runs this code from now on. -/
def assignCode (hash : Digest) (vmType vmVersion time : Nat) (s : State) : State :=
  { s with
    accounts := s.accounts.modify account
      (fun a => { a with
        codeSequence := a.codeSequence + 1
        codeHash := hash
        vmType := vmType
        vmVersion := vmVersion
        lastCodeUpdate := time }) fun _ => rfl }

/-- The hash of the code to set; clearing the code sets the zero hash. -/
def Vm.hashOf (vm : Vm) (code : Bytes) : Digest := if 0 < code.length then vm.sha256 code else 0

/-- `apply_eosio_setcode`. -/
def setcode (vm : Vm) (ctx : ActionContext) (act : SetCode) : StateM Unit := do
  requireAuthorization ctx act.account
  require (act.vmtype = 0) .invalidContractVmType "code should be 0"
  require (act.vmversion = 0) .invalidContractVmVersion "version should be 0"
  whenever (0 < act.code.length) (raise (vm.validate act.code))
  let account ← getAccount act.account
  require (0 < act.code.length ∨ account.codeHash ≠ 0) .setExactCode "contract is already cleared"
  let oldSize ← releaseOldCode account (vm.hashOf act.code)
  whenever (0 < act.code.length)
    (modify (acquireCode (vm.hashOf act.code) act.code (ctx.headBlockNum + 1)))
  modify (assignCode act.account (vm.hashOf act.code) act.vmtype act.vmversion ctx.pendingBlockTime)
  let newSize := act.code.length * setcodeRamBytesMultiplier
  whenever (newSize ≠ oldSize) (addRamUsage act.account ((newSize : Int) - oldSize))

structure SetAbi where
  account : Name
  abi : Bytes

/-- The account has this ABI from now on. -/
def assignAbi (abi : Bytes) (s : State) : State :=
  { s with
    accounts := s.accounts.modify account
      (fun a => { a with abi := abi, abiSequence := a.abiSequence + 1 }) fun _ => rfl }

/-- `apply_eosio_setabi`. -/
def setabi (act : SetAbi) : StateM Unit := do
  requireAuthorization ctx act.account
  let account ← getAccount act.account
  modify (assignAbi act.account act.abi)
  whenever (act.abi.length ≠ account.abi.length)
    (addRamUsage act.account ((act.abi.length : Int) - account.abi.length))

/-- The account has this code and ABI from now on; an empty ABI is not set. -/
def assignContract (contract : Name) (hash : Digest) (abi : Bytes) (time : Nat) (privileged : Bool)
    (s : State) : State :=
  { s with
    accounts := s.accounts.modify contract
      (fun a => { a with
        abi := if 0 < abi.length then abi else a.abi
        privileged := privileged
        codeSequence := a.codeSequence + 1
        abiSequence := a.abiSequence + 1
        vmType := 0
        vmVersion := 0
        codeHash := hash
        lastCodeUpdate := time }) fun _ => rfl }

/-- `initialize_contract`: the code that the account had is not looked at. -/
def initializeContract (vm : Vm) (contract : Name) (code abi : Bytes) (updateTime : Nat)
    (privileged : Bool) : StateM Unit := do
  let _ ← getAccount contract
  modify (acquireCode (vm.sha256 code) code 1)
  modify (assignContract contract (vm.sha256 code) abi updateTime privileged)
  let s ← get
  let usage ← raise (getUsage s.resources contract)
  set { s with
    resources := setUsage s.resources contract
      { usage with
        ramUsage := usage.ramUsage + (code.length + abi.length) * setcodeRamBytesMultiplier } }

/-! ## Configuration and genesis -/

/-- An initial account: its name as `initialize_account` forms it, and whether
    it is in the list of active ones. -/
structure GenesisAccount where
  name : Name
  key : PublicKey
  asset : Nat
  active : Bool

structure GenesisProducer where
  name : Name
  bpkey : PublicKey
  commissionRate : UInt32
  url : Bytes

/-- `controller::config`, as far as it is read here. -/
structure Conf where
  initialKey : PublicKey
  initialTimestamp : Nat
  systemCode : Bytes
  systemAbi : Bytes
  tokenCode : Bytes
  tokenAbi : Bytes
  lockCode : Bytes
  lockAbi : Bytes
  system01Code : Bytes
  system01Abi : Bytes
  msigCode : Bytes
  msigAbi : Bytes
  eosioAbiBin : Bytes
  initialAccountList : List GenesisAccount
  inactiveFreezePercent : Nat
  initialProducerList : List GenesisProducer

/-- `authority( key )`. -/
def keyAuthority (key : PublicKey) : Auth where
  threshold := 1
  keys := [⟨key, 1⟩]

/-- `authority( 1, {}, {} )` and the one with `account@active`. -/
def emptyAuthority : Auth where
  threshold := 1

def activeAuthority : Auth where
  threshold := 1
  accounts := [⟨⟨account, activeName⟩, 1⟩]

variable (conf : Conf)

/-- Before there is a block the features are not active, and two types of keys
    are supported. -/
def genesisContext : ActionContext where
  receiver := systemAccountName
  account := systemAccountName
  authorization := []
  pendingBlockTime := conf.initialTimestamp
  numSupportedKeyTypes := 2

/-- The amount in a row of `vote4ramsum`, an `int64_t` behind the name. -/
def stakedIn (data : Bytes) : Int :=
  let n : Nat := ((data.drop 8).take 8).foldr (fun b n => b.toNat + 256 * n) 0
  if n < 2 ^ 63 then n else n - 2 ^ 64

/-- `get_account_ram_limit`. -/
def getAccountRamLimit (s : State) (a : Name) : Int :=
  let initRamSize := getNumConfigOnChain s freeRamPerAccount (8 * 1024)
  if a ∈ Database.unlimitedRam then -1
  else
    match memoryFind s systemAccountName systemAccountName vote4ramsumTable a.value with
    | none => initRamSize
    | some row =>
      (stakedIn row.value * getNumConfigOnChain s ramRentBPerEos 10240).tdiv 1000000 + initRamSize

section Views

variable {σ : Type} (s : State) (others : Database.Tables σ)

/-- The tables that the transaction pipeline reads by name, as far as they are
    rows of this state. -/
def tablesOf : Database.Tables σ :=
  { others with
    configNums := s.configNums
    vote4ram := fun a =>
      (memoryFind s systemAccountName systemAccountName vote4ramsumTable a.value).map fun row =>
        ⟨stakedIn row.value, coreSymbol⟩ }

/-- The pipeline asks for functions that no block opens by default. -/
theorem isFuncHasOpen_tablesOf (headNum : Nat) (typ : Name) :
    Database.isFuncHasOpen headNum (tablesOf s others) typ ↔ isFuncHasOpen s headNum typ 0 :=
  ⟨.inl, fun h => h.resolve_right fun hd => hd.2.1 rfl⟩

theorem getAccountRamLimit_tablesOf (a : Name) :
    Database.getAccountRamLimit (tablesOf s others) a = getAccountRamLimit s a := by
  have hvote : (tablesOf s others).vote4ram a = Option.map _ _ := rfl
  rw [Database.getAccountRamLimit, getAccountRamLimit, hvote]
  cases memoryFind s systemAccountName systemAccountName vote4ramsumTable a.value with
  | none => rfl
  | some row => rfl

end Views

/-- `create_native_account`. -/
def createNativeAccount (name : Name) (owner active : Auth) (privileged : Bool) :
    StateM Unit := do
  createAccount
    { name := name
      creationDate := conf.initialTimestamp
      abi := if name = systemAccountName then conf.eosioAbiBin else []
      privileged := privileged }
  createPermissions (genesisContext conf) name owner active conf.initialTimestamp
  initializeAccount name
  addRamUsage name (newAccountBytes owner active : Nat)
  let s ← get
  zoom (·.resources) (fun r s => { s with resources := r })
    (verifyAccountRamUsage name (getAccountRamLimit s name))

/-- The permissions `prod.major` and `prod.minor`, for which nobody is charged. -/
def createProducerPermissions : StateM Unit := do
  let s ← get
  let active ← raise (getPermission s.permissions ⟨producersAccountName, activeName⟩)
  let major ← createPermission (genesisContext conf) producersAccountName
    majorityProducersPermissionName active.id (activeAuthority systemAccountName)
    conf.initialTimestamp
  let _ ← createPermission (genesisContext conf) producersAccountName
    minorityProducersPermissionName major (activeAuthority systemAccountName)
    conf.initialTimestamp

/-! ## The start of a block -/

/-- A permission gets another authority, and no other time. -/
def exchangeAuth (id : Nat) (auth : Auth) (s : State) : State :=
  { s with permissions := s.permissions.modify id (fun p => { p with auth := auth }) fun _ => rfl }

/-- A permission gets another authority, for which nobody is charged. -/
def replaceAuth (level : PermissionLevel) (auth : Auth) : StateM Unit := do
  let s ← get
  let p ← raise (getPermission s.permissions level)
  set (exchangeAuth p.id auth s)

/-- `update_eosio_authority`. -/
def updateEosioAuthority : StateM Unit :=
  replaceAuth ⟨systemAccountName, activeName⟩ (activeAuthority producersAccountName)

/-- `create_account_in_memory`; a row that is there is unpacked. -/
def createAccountInMemory (name : Name) : StateM Unit := do
  let s ← get
  match memoryFind s systemAccountName systemAccountName accountsTable name.value with
  | some row => require (24 ≤ row.value.length) .stdException "read datastream of length 24"
  | none =>
    memoryInsert systemAccountName systemAccountName accountsTable name name.value
      (accountInfo name 0)

/-- The contracts that `check_func_open` loads. -/
def loadContracts (vm : Vm) (conf : Conf) (headNum : Nat) : StateM Unit := do
  let s ← get
  whenever (isFuncOpenInCurrBlock s headNum FuncTyp.useSystem01 3385100)
    (initializeContract vm systemAccountName conf.system01Code conf.system01Abi
      conf.initialTimestamp true)
  whenever (isFuncOpenInCurrBlock s headNum FuncTyp.useMsig 4356456)
    (initializeContract vm msigAccountName conf.msigCode conf.msigAbi conf.initialTimestamp true)

/-- `check_func_open`. -/
def checkFuncOpen (vm : Vm) (conf : Conf) (headNum : Nat) : StateM Unit := do
  loadContracts vm conf headNum
  let s ← get
  whenever (isFuncOpenInCurrBlock s headNum FuncTyp.useEosioProds 0) updateEosioAuthority
  whenever (isFuncOpenInCurrBlock s headNum FuncTyp.voteForRam 0)
    (modify (setNumConfigOnChain freeRamPerAccount (8 * 1024)))
  whenever (isFuncHasOpen s headNum FuncTyp.createEosioAccount 5814500)
    (createAccountInMemory systemAccountName)
  whenever (isFuncOpenInCurrBlock s headNum FuncTyp.createProdsAccount 0)
    (createAccountInMemory producersAccountName)

/-- The authority that `update_producers_authority` gives a permission. -/
def producersAuthority (producers : List Name) (numerator denominator : Nat) : Auth where
  threshold := UInt32.ofNat (producers.length * numerator / denominator + 1)
  accounts := producers.map fun p => ⟨⟨p, activeName⟩, 1⟩

/-- `update_producers_authority`. -/
def updateProducersAuthority (producers : List Name) : StateM Unit := do
  replaceAuth ⟨producersAccountName, activeName⟩ (producersAuthority producers 2 3)
  replaceAuth ⟨producersAccountName, majorityProducersPermissionName⟩
    (producersAuthority producers 1 2)
  replaceAuth ⟨producersAccountName, minorityProducersPermissionName⟩
    (producersAuthority producers 1 3)

/-- One correction of `on_activation` of `replace_deferred`. -/
def applyRamCorrection (c : RamCorrection) : StateM Unit := do
  let s ← get
  let usage ← raise (getUsage s.resources c.name)
  addRamUsage c.name (-(min c.ramCorrection usage.ramUsage : Nat))
  modify fun s => { s with ramCorrections := s.ramCorrections.erase c.name }

/-- `on_activation` of `replace_deferred`. -/
def activateReplaceDeferred : StateM Unit := do
  let s ← get
  s.ramCorrections.rows.forM applyRamCorrection

/-! ## Deferred transactions -/

/-- What a deferred transaction is billed. -/
def Deferred.size (d : Deferred) : Nat := deferredSize + d.packedTrx.length

/-- The creation of a `generated_transaction_object`. -/
def createDeferred (d : Deferred) : StateM Unit := do
  let s ← get
  if h : s.deferred.find d.key = none then set { s with deferred := s.deferred.insert d h }
  else throw ⟨.uniqueness,
    "could not insert object, most likely a uniqueness constraint was violated"⟩

/-- `add_to_ram_correction`. -/
def addToRamCorrection (ramBytes : Nat) (s : State) : State :=
  if h : s.ramCorrections.find account = none then
    { s with ramCorrections := s.ramCorrections.insert ⟨account, ramBytes⟩ h }
  else
    { s with
      ramCorrections := s.ramCorrections.modify account
        (fun c => { c with ramCorrection := c.ramCorrection + ramBytes }) fun _ => rfl }

/-- The refund of a deferred transaction that is replaced; without the feature
    it is put off. -/
def refundExisting (old : Deferred) : StateM Unit :=
  if ctx.replaceDeferred then addRamUsage old.payer (-Deferred.size old)
  else modify (addToRamCorrection old.payer (Deferred.size old))

/-- A deferred transaction with the same sender and number makes room.
    `subjective` is that the replacement is refused without the feature. -/
def replaceExisting (old : Deferred) (allowed subjective : Bool) :
    StateM Unit := do
  require (allowed = true) .deferredTxDuplicate
    "deferred transaction with the same sender_id and payer already exists"
  require (ctx.replaceDeferred = true ∨ subjective = false) .subjectiveBlockProduction
    "Replacing a deferred transaction is temporarily disabled."
  refundExisting ctx old
  modify fun s => { s with deferred := s.deferred.erase old.key }

def makeRoom (senderId : Nat) (allowed subjective : Bool) : StateM Unit := do
  let s ← get
  match s.deferred.find (ctx.receiver, senderId) with
  | some old => replaceExisting ctx old allowed subjective
  | none => pure ()

/-- Another account than the receiver has to agree to pay.  With
    `ram_restrictions` it cannot be billed within a notification either. -/
def requirePayer (payer : Name) : StateM Unit :=
  if ctx.ramRestrictions then do
    require (ctx.receiver = ctx.account) .actionValidate
      "cannot bill RAM usage of deferred transactions to another account within notify context"
    require (∃ p ∈ ctx.authorization, p.actor = payer) .actionValidate
      "cannot bill RAM usage of deferred transaction to another account that has not authorized the action: $\x7bpayer\x7d"
  else requireAuthorization ctx payer

/-- The end of `schedule_deferred_transaction`, after the checks of the
    transaction itself. -/
def scheduleDeferred (senderId : Nat) (payer : Name) (packedTrx : Bytes)
    (allowed subjective : Bool) : StateM Unit := do
  whenever (ctx.skipAuthCheck = false ∧ ctx.privileged = false ∧ payer ≠ ctx.receiver)
    (requirePayer ctx payer)
  makeRoom ctx senderId allowed subjective
  createDeferred ⟨ctx.receiver, senderId, payer, packedTrx⟩
  require (ctx.ramRestrictions = true ∨ ctx.ramBillingInNotifyAllowed = true ∨
      ctx.receiver = ctx.account ∨ ctx.receiver = payer ∨ ctx.privileged = true)
    .subjectiveBlockProduction "Cannot charge RAM to other accounts during notify."
  addRamUsage payer (deferredSize + packedTrx.length : Nat)

/-- `schedule_transaction` of a delayed transaction. -/
def delayTransaction (senderId : Nat) (payer : Name) (packedTrx : Bytes) : StateM Unit := do
  createDeferred ⟨noName, senderId, payer, packedTrx⟩
  addRamUsage payer (deferredSize + packedTrx.length : Nat)

/-- The removal of a deferred transaction by `cancel_deferred_transaction` or
    `remove_scheduled_transaction`. -/
def removeDeferred (sender : Name) (senderId : Nat) : StateM Unit := do
  let s ← get
  match s.deferred.find (sender, senderId) with
  | none => pure ()
  | some d => do
      addRamUsage d.payer (-Deferred.size d)
      modify fun s => { s with deferred := s.deferred.erase d.key }

/-! ## The machine -/

/-- One step of the chain's life, as far as its tables go. -/
inductive Step where
  | reservePermission
  | createNativeAccount (name : Name) (owner active : Auth) (privileged : Bool)
  | insert (code scope table payer : Name) (id : UInt64) (data : Bytes)
  | initializeContract (account : Name) (code abi : Bytes) (privileged : Bool)
  | setNumConfig (typ : Name) (num : Int)
  | createProducerPermissions
  | checkFuncOpen (headNum : Nat)
  | updateProducersAuthority (producers : List Name)
  | activateReplaceDeferred
  | newaccount (ctx : ActionContext) (create : NewAccount)
  | setcode (ctx : ActionContext) (act : SetCode)
  | setabi (ctx : ActionContext) (act : SetAbi)
  | setconfig (ctx : ActionContext) (typ : Name) (num : Int)
  | manage (ctx : ActionContext) (action : ManageAction)
  | contract (ctx : ActionContext) (op : Op)
  | scheduleDeferred (ctx : ActionContext) (senderId : Nat) (payer : Name) (packedTrx : Bytes)
      (allowed subjective : Bool)
  | delayTransaction (senderId : Nat) (payer : Name) (packedTrx : Bytes)
  | removeDeferred (sender : Name) (senderId : Nat)

/-- The reserved permission 0. -/
def reservePermission : StateM Unit :=
  modify fun s => { s with permissions := s.permissions.push (fun id => { id := id }) fun _ => rfl }

/-- `apply_eosio_setconfig`. -/
def setconfig (ctx : ActionContext) (typ : Name) (num : Int) : StateM Unit := do
  require (∃ p ∈ ctx.authorization, p.actor = chainConfigName ∨ p.actor = systemAccountName ∨
      p.actor = producersAccountName) .missingAuth "setconfig need auth by eosio.prods"
  modify (setNumConfigOnChain typ num)

def Step.perform (vm : Vm) (conf : Conf) : Step → StateM Unit
  | .reservePermission => NativeActions.reservePermission
  | .createNativeAccount name owner active privileged =>
    NativeActions.createNativeAccount conf name owner active privileged
  | .insert code scope table payer id data => memoryInsert code scope table payer id data
  | .initializeContract account code abi privileged =>
    NativeActions.initializeContract vm account code abi conf.initialTimestamp privileged
  | .setNumConfig typ num => modify (setNumConfigOnChain typ num)
  | .createProducerPermissions => NativeActions.createProducerPermissions conf
  | .checkFuncOpen headNum => NativeActions.checkFuncOpen vm conf headNum
  | .updateProducersAuthority producers => NativeActions.updateProducersAuthority producers
  | .activateReplaceDeferred => NativeActions.activateReplaceDeferred
  | .newaccount ctx create => NativeActions.newaccount ctx create
  | .setcode ctx act => NativeActions.setcode vm ctx act
  | .setabi ctx act => NativeActions.setabi ctx act
  | .setconfig ctx typ num => NativeActions.setconfig ctx typ num
  | .manage ctx action => action.apply ctx
  | .contract ctx op => op.perform ctx
  | .scheduleDeferred ctx senderId payer packedTrx allowed subjective =>
    NativeActions.scheduleDeferred ctx senderId payer packedTrx allowed subjective
  | .delayTransaction senderId payer packedTrx =>
    NativeActions.delayTransaction senderId payer packedTrx
  | .removeDeferred sender senderId => NativeActions.removeDeferred sender senderId

/-- `initialize_account`: one initial account, with the share that is locked
    while it is not active. -/
def genesisAccount (account : GenesisAccount) : List Step :=
  let frozen := if account.active then 0 else account.asset * conf.inactiveFreezePercent / 100
  (if account.active then []
    else [.insert eoslockAccountName eoslockAccountName accountsTable account.name
      account.name.value (eoslockAccount account.name (UInt64.ofNat frozen))]) ++
  [.insert systemAccountName systemAccountName accountsTable account.name account.name.value
      (accountInfo account.name (UInt64.ofNat (account.asset - frozen))),
   .createNativeAccount account.name (keyAuthority account.key) (keyAuthority account.key) false]

/-- `initialize_producer`. -/
def genesisProducer (producer : GenesisProducer) : Step :=
  .insert systemAccountName systemAccountName bpsTable producer.name producer.name.value
    (bpInfo producer.name producer.bpkey producer.commissionRate producer.url)

/-- `initialize_database`, with `initialize_eosc_chain` in it. -/
def genesisSteps : List Step :=
  let systemAuth := keyAuthority conf.initialKey
  [.reservePermission,
   .createNativeAccount systemAccountName systemAuth systemAuth true,
   .createNativeAccount tokenAccountName systemAuth systemAuth false,
   .createNativeAccount eoslockAccountName systemAuth systemAuth false,
   .initializeContract systemAccountName conf.systemCode conf.systemAbi true,
   .initializeContract tokenAccountName conf.tokenCode conf.tokenAbi false,
   .insert tokenAccountName ⟨coreSymbolValue / 256⟩ statTable tokenAccountName
     (coreSymbolValue / 256) (currencyStats 10000000 100000000000 tokenAccountName),
   .initializeContract eoslockAccountName conf.lockCode conf.lockAbi false] ++
  conf.initialAccountList.flatMap (genesisAccount conf) ++
  conf.initialProducerList.map genesisProducer ++
  [.insert systemAccountName systemAccountName chainstatusTable systemAccountName
     chainstatusTable.value (chainStatus chainstatusTable false),
   .setNumConfig freeRamPerAccount (-1),
   .createNativeAccount nullAccountName emptyAuthority emptyAuthority false,
   .createNativeAccount producersAccountName emptyAuthority (activeAuthority systemAccountName)
     false,
   .createProducerPermissions]

/-- The empty database. -/
def blank : State where
  accounts := Table.empty
  codes := Table.empty
  permissions := Serial.empty
  usages := Serial.empty
  links := Table.empty
  tables := Serial.empty
  rows := Table.empty
  deferred := Table.empty
  ramCorrections := Table.empty
  configNums := fun _ => none
  resources :=
    { usage := fun _ => none
      weights := fun _ => none
      virtualNetLimit := 0
      virtualCpuLimit := 0
      maxNet := 0
      maxCpu := 0
      accountNetUsageAverageWindow := 1
      accountCpuUsageAverageWindow := 1 }

/-- `initialize_database`. -/
def initializeDatabase (vm : Vm) (conf : Conf) : StateM Unit :=
  (genesisSteps conf).forM fun step => step.perform vm conf

/-- The steps that come after genesis. -/
def Step.Live : Step → Prop
  | .reservePermission => False
  | .createNativeAccount .. => False
  | .insert .. => False
  | .initializeContract .. => False
  | .setNumConfig .. => False
  | .createProducerPermissions => False
  | _ => True

/-- The states of a chain: genesis, and after any number of steps that are
    allowed. -/
inductive Reachable (vm : Vm) (conf : Conf) (allowed : Step → Prop) : State → Prop where
  | genesis {s : State} : initializeDatabase vm conf blank = .ok () s → Reachable vm conf allowed s
  | step {s : State} {step : Step} : Reachable vm conf allowed s → step.Live → allowed step →
      Reachable vm conf allowed (commit (step.perform vm conf) s)

/-- **WHOLE RUNS**: what genesis has and every allowed step keeps. -/
theorem Reachable.invariant {vm : Vm} {conf : Conf} {allowed : Step → Prop} {I : State → Prop}
    {s : State} (h : Reachable vm conf allowed s)
    (hgenesis : ∀ s, initializeDatabase vm conf blank = .ok () s → I s)
    (hstep : ∀ step : Step, step.Live → allowed step → Preserves I (step.perform vm conf)) :
    I s := by
  induction h with
  | genesis h => exact hgenesis _ h
  | step _ hlive hallowed ih => exact (hstep _ hlive hallowed).commit ih

/-! ## A small chain -/

/-- Every code is valid, and its hash is its bytes read as a number. -/
def smallVm : Vm where
  sha256 := fun code => 1 + code.foldl (fun n b => 256 * n + b.toNat) 0
  nonzero := fun _ => Nat.ne_of_gt (Nat.lt_add_right _ Nat.one_pos)
  validate := fun _ => .ok ()

/-- No initial accounts and producers, and contracts of one byte. -/
def smallConf : Conf where
  initialKey := [0, 1]
  initialTimestamp := 1
  systemCode := [1]
  systemAbi := []
  tokenCode := [2]
  tokenAbi := []
  lockCode := [3]
  lockAbi := []
  system01Code := [4]
  system01Abi := []
  msigCode := [5]
  msigAbi := []
  eosioAbiBin := []
  initialAccountList := []
  inactiveFreezePercent := 0
  initialProducerList := []

/-- The state after genesis. -/
def smallGenesis : State := commit (initializeDatabase smallVm smallConf) blank

theorem smallGenesis_ok : initializeDatabase smallVm smallConf blank = .ok () smallGenesis :=
  completes_iff.mp (by decide +kernel)

end NativeActions
