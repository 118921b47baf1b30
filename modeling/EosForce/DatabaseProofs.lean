import EosForce.ResourceProofs

/-! # The state database

    The tables that the transaction pipeline reads or writes by name.  The
    rest of the database is an arbitrary value of type `σ`; only contract code
    and the authorization manager look into it. -/

namespace Database

open ChainTypes TrxTypes Resource

/-! ## Rows -/

/-- `account_object` and `account_metadata_object`, created together. -/
structure AccountMetadata where
  privileged : Bool := false
  codeHash : Digest := 0
  recvSequence : Nat := 0
  authSequence : Nat := 0
  codeSequence : Nat := 0
  abiSequence : Nat := 0
deriving DecidableEq, Repr

/-- `action_fee_object`, the row that `setfee` writes. -/
structure ActionFee where
  fee : Asset
  cpuLimit : Nat := 0
  netLimit : Nat := 0
  ramLimit : Nat := 0
deriving DecidableEq, Repr

/-- `memory_db::bp_info`, as far as the fee actions use it. -/
structure BpInfo where
  totalStaked : Int := 0
  rewardsPool : Asset := Asset.zero
  totalVoteage : Int := 0
  voteageUpdateHeight : Nat := 0
deriving DecidableEq, Repr

/-- `memory_db::vote_info`, as far as the fee actions use it. -/
structure VoteInfo where
  staked : Asset := Asset.zero
  voteageUpdateHeight : Nat := 0
  voteage : Int := 0
deriving DecidableEq, Repr

/-- `chain_config`, less the fields that only other code reads. -/
structure ChainConfig where
  maxTransactionNetUsage : UInt32
  basePerTransactionNetUsage : UInt32 := 0
  netUsageLeeway : UInt32 := 0
  contextFreeDiscountNetUsageNum : UInt32 := 0
  contextFreeDiscountNetUsageDen : UInt32 := 0
  maxTransactionCpuUsage : UInt32
  minTransactionCpuUsage : UInt32 := 100
  maxTransactionLifetime : UInt32 := 3600
  deferredTrxExpirationWindow : UInt32 := 600
  maxInlineActionDepth : UInt16 := 4

/-- What contract code may write.  `chainStatus` is the table of that name
    and its row; `vote4ram` and the tables before it belong to `eosio`. -/
structure Tables (σ : Type) where
  accounts : Name → Option AccountMetadata
  actionFees : Name → Name → Option ActionFee
  configNums : Name → Option Int
  chainStatus : Option (Option Bool)
  balances : Name → Option Asset
  bps : Name → Option BpInfo
  votes : Name → Name → Option VoteInfo
  vote4ram : Name → Option Asset
  configuration : ChainConfig
  rest : σ

/-- The state database. -/
structure Db (σ : Type) where
  tables : Tables σ
  resources : Resources
  globalActionSequence : Nat := 0
  generated : List GeneratedTransaction := []
  transactions : List (Digest × Nat) := []

variable {σ : Type}

variable (t : Tables σ)

def Tables.setAccount (a : Name) (m : AccountMetadata) : Tables σ :=
  { t with accounts := fun b => if b = a then some m else t.accounts b }

def Tables.setBalance (a : Name) (v : Asset) : Tables σ :=
  { t with balances := fun b => if b = a then some v else t.balances b }

def Tables.setBp (a : Name) (v : BpInfo) : Tables σ :=
  { t with bps := fun b => if b = a then some v else t.bps b }

def Tables.setVote (voter bp : Name) (v : VoteInfo) : Tables σ :=
  { t with votes := fun x y => if x = voter ∧ y = bp then some v else t.votes x y }

/-! ## Configuration on the chain -/

namespace Config

def cpuPerFee : Name := ⟨0xbab004574b528000⟩
def netPerFee : Name := ⟨0xbab009ab2b528000⟩
def freeRamPerAccount : Name := ⟨0xbab005dd4ab9a400⟩
def ramRentBPerEos : Name := ⟨0xbab00b9a5754f200⟩
def trxSizeLimit : Name := ⟨0xbab00cdfb877d400⟩
def votageRatio : Name := ⟨0xbab00dd32662ae00⟩
def onfeeAction : Name := ⟨0x582935a946464000⟩
def votageAsFeeNum : Name := ⟨0x58374c998a980000⟩
def defaultTrxSize : Int := 100 * 1024

end Config

/-- `get_num_config_on_chain`. -/
def getNumConfigOnChain (typ : Name) (defaultValue : Int) : Int :=
  (t.configNums typ).getD defaultValue

/-- `is_func_has_open`, with no default block. -/
def isFuncHasOpen (headBlockNum : Nat) (t : Tables σ) (funcTyp : Name) : Prop :=
  0 ≤ getNumConfigOnChain t funcTyp (-1) ∧
    getNumConfigOnChain t funcTyp (-1) ≤ headBlockNum

instance (headBlockNum : Nat) (t : Tables σ) (funcTyp : Name) :
    Decidable (isFuncHasOpen headBlockNum t funcTyp) := by
  unfold isFuncHasOpen
  infer_instance

/-- The accounts whose RAM is not limited. -/
def unlimitedRam : List Name :=
  [N.eosio, ⟨0x5d2e8502e6900000⟩, ⟨0x5d2e850115d00000⟩, ⟨0x5d2e85026ac80000⟩,
    ⟨0x5d2e85032ac64000⟩, ⟨0x5530ea033482a600⟩, ⟨0x5530ea0258730000⟩,
    ⟨0x5530ea00eea60000⟩]

/-- `get_account_ram_limit`. -/
def getAccountRamLimit (a : Name) : Int :=
  let initRamSize := getNumConfigOnChain t Config.freeRamPerAccount (8 * 1024)
  if a ∈ unlimitedRam then -1
  else
    match t.vote4ram a with
    | none => initRamSize
    | some staked =>
      (staked.amount * getNumConfigOnChain t Config.ramRentBPerEos 10240).tdiv 1000000 + initRamSize

end Database
