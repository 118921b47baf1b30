import EosForce.ResourceProofs
import EosForce.AuthorityProofs
import EosForce.RowTableProofs

/-! # The tables that native actions write

    Accounts, contract code, permissions and links, contract tables and their
    rows, deferred transactions, and the configuration on the chain, with the
    RAM that each object is billed.  Objects that chainbase numbers are rows
    of a numbered table; objects that are only ever looked up by a unique key
    are rows of a table with that key. -/

namespace StateTables

open ChainTypes TrxTypes Effect Resource Authority RowTable

/-! ## Names -/

def ownerName : Name := ⟨0xa726ab8000000000⟩
def activeName : Name := N.active
def eosioAnyName : Name := ⟨0x5530ea00d3f00000⟩
def systemAccountName : Name := N.eosio

/-- The symbols of a name. -/
def nameCharmap : List Char := ".12345abcdefghijklmnopqrstuvwxyz".toList

/-- The thirteen symbols of a name, first one first. -/
def nameSymbols (n : Name) : List Char :=
  (List.range 13).map fun i =>
    let v := n.value.toNat
    let digit := if i = 12 then v % 16 else v / 2 ^ (59 - 5 * i) % 32
    nameCharmap.getD digit '.'

/-- `name::to_string`. -/
def nameToString (n : Name) : List Char :=
  ((nameSymbols n).reverse.dropWhile (· = '.')).reverse

example : String.ofList (nameToString eosioAnyName) = "eosio.any" := by decide +kernel

/-! ## Objects -/

/-- `account_object` and `account_metadata_object`, created together. -/
structure Account where
  name : Name
  creationDate : Nat := 0
  abi : Bytes := []
  privileged : Bool := false
  codeSequence : Nat := 0
  abiSequence : Nat := 0
  codeHash : Digest := 0
  vmType : Nat := 0
  vmVersion : Nat := 0
  lastCodeUpdate : Nat := 0
deriving DecidableEq, Repr

/-- What identifies a code object: hash, type and version. -/
abbrev CodeKey := Digest × Nat × Nat

/-- `code_object`. -/
structure CodeObject where
  codeHash : Digest
  code : Bytes
  codeRefCount : Nat
  firstBlockUsed : Nat
  vmType : Nat
  vmVersion : Nat
deriving DecidableEq, Repr

def CodeObject.key (o : CodeObject) : CodeKey := (o.codeHash, o.vmType, o.vmVersion)

def Account.codeKey (a : Account) : CodeKey := (a.codeHash, a.vmType, a.vmVersion)

/-- `permission_object`. -/
structure PermissionObject where
  id : Nat
  usageId : Nat := 0
  parent : Nat := 0
  owner : Name := noName
  name : Name := noName
  lastUpdated : Nat := 0
  auth : Auth := {}
deriving DecidableEq, Repr

/-- `permission_usage_object`. -/
structure PermissionUsage where
  id : Nat
  lastUsed : Nat
deriving DecidableEq, Repr

/-- `permission_link_object`. -/
structure PermissionLink where
  account : Name
  code : Name
  messageType : Name
  requiredPermission : Name
deriving DecidableEq, Repr

def PermissionLink.key (l : PermissionLink) : Name × Name × Name :=
  (l.account, l.code, l.messageType)

/-- `table_id_object`; `count` is a `uint32_t`. -/
structure TableId where
  id : Nat
  code : Name
  scope : Name
  table : Name
  payer : Name
  count : Nat := 0
deriving DecidableEq, Repr

/-- The indices that hold rows of contract tables. -/
inductive RowIndex where
  | keyValue
  | index64
  | index128
  | index256
  | indexDouble
  | indexLongDouble
deriving DecidableEq, Repr

/-- `key_value_object`, or an object of a secondary index; `value` is the
    value of the one and the secondary key of the others. -/
structure ContractRow where
  index : RowIndex
  tId : Nat
  primaryKey : UInt64
  payer : Name
  value : Bytes
deriving DecidableEq, Repr

/-- What identifies a row. -/
abbrev RowKey := RowIndex × Nat × UInt64

def ContractRow.key (r : ContractRow) : RowKey := (r.index, r.tId, r.primaryKey)

/-- `generated_transaction_object`, as far as it is billed. -/
structure Deferred where
  sender : Name
  senderId : Nat
  payer : Name
  packedTrx : Bytes
deriving DecidableEq, Repr

def Deferred.key (d : Deferred) : Name × Nat := (d.sender, d.senderId)

/-- `account_ram_correction_object`. -/
structure RamCorrection where
  name : Name
  ramCorrection : Nat
deriving DecidableEq, Repr

/-- The tables. -/
structure State where
  accounts : Table Account.name
  codes : Table CodeObject.key
  permissions : Serial PermissionObject.id
  usages : Serial PermissionUsage.id
  links : Table PermissionLink.key
  tables : Serial TableId.id
  rows : Table ContractRow.key
  deferred : Table Deferred.key
  ramCorrections : Table RamCorrection.name
  configNums : Name → Option Int
  resources : Resources

abbrev StateM := EStateM FcException State

/-! ## What objects are billed -/

/-- `billable_size_v`: rounded up to `billable_alignment`. -/
def billableSize (value : Nat) : Nat := (value + 16 - 1) / 16 * 16

def overheadPerRowPerIndex : Nat := 32
def overheadPerAccount : Nat := 2 * 1024
def setcodeRamBytesMultiplier : Nat := 10

def tableIdSize : Nat := billableSize (44 + overheadPerRowPerIndex * 2)

/-- The billable size of an object of an index, without the value of a
    `key_value_object`. -/
def RowIndex.size : RowIndex → Nat
  | .keyValue => billableSize (32 + 8 + 4 + overheadPerRowPerIndex * 2)
  | .index64 => billableSize (24 + 8 + overheadPerRowPerIndex * 3)
  | .index128 => billableSize (24 + 16 + overheadPerRowPerIndex * 3)
  | .index256 => billableSize (24 + 32 + overheadPerRowPerIndex * 3)
  | .indexDouble => billableSize (24 + 8 + overheadPerRowPerIndex * 3)
  | .indexLongDouble => billableSize (24 + 16 + overheadPerRowPerIndex * 3)

/-- What a row is billed. -/
def ContractRow.size (r : ContractRow) : Nat :=
  match r.index with
  | .keyValue => r.value.length + r.index.size
  | _ => r.index.size

def permissionSize : Nat :=
  billableSize (billableSize (3 * 16 + 4) + 64 + 5 * overheadPerRowPerIndex)

def permissionLinkSize : Nat := billableSize (40 + overheadPerRowPerIndex * 3)

def deferredSize : Nat := billableSize (96 + 4 + overheadPerRowPerIndex * 5)

/-- `shared_authority::get_billable_size`. -/
def authSize (auth : Auth) : Nat :=
  auth.accounts.length * billableSize 24 + auth.waits.length * billableSize 16 +
    (auth.keys.map fun k => billableSize 8 + k.key.length).sum

example : (tableIdSize, RowIndex.keyValue.size, permissionSize, permissionLinkSize,
    deferredSize) = (112, 112, 288, 144, 272) := by decide

/-! ## Contexts of actions -/

/-- What an action in execution is told by its context: who receives it and
    who signed for it, the block, the configuration, and which protocol
    features are active.  `checkKeyList` is the key blacklist, which is only
    looked at by a producer. -/
structure ActionContext where
  receiver : Name
  account : Name
  authorization : List PermissionLevel
  privileged : Bool := false
  skipAuthCheck : Bool := false
  headBlockNum : Nat := 1
  pendingBlockTime : Nat := 0
  onlyLinkToExistingPermission : Bool := true
  fixLinkauthRestriction : Bool := true
  ramRestrictions : Bool := true
  replaceDeferred : Bool := true
  ramBillingInNotifyAllowed : Bool := false
  maxTransactionDelay : Nat := 45 * 24 * 3600
  numSupportedKeyTypes : Nat := 2
  checkKeyList : PublicKey → Except FcException Unit := fun _ => .ok ()

/-- `require_authorization`. -/
def requireAuthorization (ctx : ActionContext) (account : Name) : StateM Unit :=
  require (∃ p ∈ ctx.authorization, p.actor = account) .missingAuth
    "missing authority of $\x7baccount\x7d"

/-- `db.get<account_object, by_name>`. -/
def getAccount (account : Name) : StateM Account := do
  let s ← get
  orThrow (s.accounts.find account) ⟨.keyNotFound, "unknown key"⟩

variable {account : Name}

theorem reads_requireAuthorization {ctx : ActionContext} :
    Reads (requireAuthorization ctx account) := reads_require

theorem reads_getAccount : Reads (getAccount account) :=
  reads_get.bind fun _ => reads_orThrow

theorem requireAuthorization_ok {ctx : ActionContext} {s s' : State} {u : Unit}
    (h : requireAuthorization ctx account s = .ok u s') : s' = s :=
  (require_ok h).2

theorem getAccount_ok {s s' : State} {a : Account} (h : getAccount account s = .ok a s') :
    s.accounts.find account = some a ∧ s' = s :=
  orThrow_ok h

/-! ## RAM usage -/

/-- The `ram_usage` of an account. -/
def ram (r : Resources) (a : Name) : Int := (((r.usage a).map (·.ramUsage)).getD 0 : Nat)

/-- `apply_context::add_ram_usage`, as far as the tables go. -/
def addRamUsage (a : Name) (ramDelta : Int) : StateM Unit :=
  zoom (·.resources) (fun r s => { s with resources := r }) (addPendingRamUsage a ramDelta)

/-- The usage of one account went up or down by so much. -/
structure Charged (r : Resources) (a : Name) (delta : Int) (r' : Resources) : Prop where
  ram : ∀ b, ram r' b = ram r b + if b = a then delta else 0
  known : ∀ b, (r'.usage b).isSome = (r.usage b).isSome

theorem charged_zero (r : Resources) (a : Name) : Charged r a 0 r where
  ram := by
    intro b
    split
    · omega
    · omega
  known := fun _ => rfl

theorem getUsage_ok {r : Resources} {a : Name} {row : ResourceUsage}
    (h : getUsage r a = .ok row) : r.usage a = some row := by
  rw [getUsage] at h
  split at h
  · rename_i u hu
    cases h
    exact hu
  · cases h

/-- A new row for the usage of an account. -/
theorem charged_setUsage {r : Resources} {a : Name} {row : ResourceUsage} {delta : Int} {n : Nat}
    (husage : r.usage a = some row) (hn : (n : Int) = row.ramUsage + delta) :
    Charged r a delta (setUsage r a { row with ramUsage := n }) where
  ram := by
    intro b
    by_cases hb : b = a
    · subst hb
      simp [ram, setUsage, husage, hn]
    · simp [ram, setUsage, hb]
  known := by
    intro b
    by_cases hb : b = a
    · subst hb
      simp [setUsage, husage]
    · simp [setUsage, hb]

theorem addPendingRamUsage_ok {a : Name} {delta : Int} {r r' : Resources} {u : Unit}
    (h : addPendingRamUsage a delta r = .ok u r') : Charged r a delta r' := by
  rw [addPendingRamUsage] at h
  split at h
  · rename_i hzero
    cases h
    rw [hzero]
    exact charged_zero r a
  · rw [get_bind] at h
    obtain ⟨row, hrow, h⟩ := raise_bind_inv h
    obtain ⟨-, h⟩ := require_bind_inv h
    obtain ⟨hroom, h⟩ := require_bind_inv h
    cases h
    refine charged_setUsage (getUsage_ok hrow) ?_
    rcases hroom with hle | hle
    · omega
    · omega

/-- What a charge that goes through does. -/
theorem addRamUsage_ok {a : Name} {delta : Int} {s s' : State} {u : Unit}
    (h : addRamUsage a delta s = .ok u s') :
    ∃ r, Charged s.resources a delta r ∧ s' = { s with resources := r } := by
  obtain ⟨r, hr, rfl⟩ := zoom_ok_inv h
  exact ⟨r, addPendingRamUsage_ok hr, rfl⟩

end StateTables
