import EosForce.DatabaseProofs

/-! # What actions cost, and who gets it

    `txfee_manager` decides the fee of an action: a fee built into the node,
    or one that `setfee` wrote.  The two fee actions move it, `onfee` from the
    payer's balance to the producer named, `voteagefee` out of the payer's
    vote age. -/

namespace FeeRule

open ChainTypes TrxTypes Database

variable {σ : Type}

/-! ## Fees of actions -/

namespace N

def bios : Name := ⟨0x5530ea00eea60000⟩
def token : Name := ⟨0x5530ea033482a600⟩
def msig : Name := ⟨0x5530ea0258730000⟩
def victor : Name := ⟨0xdb919a5c00000000⟩
def eosvictor : Name := ⟨0x5531b72334b80000⟩
def newaccount : Name := ⟨0x9ab864229a9e4000⟩
def transfer : Name := ⟨0xcdcd3c2d57000000⟩

end N

/-- The fees that the constructor of `txfee_manager` registers. -/
def feeMap : List ((Name × Name) × Asset) :=
  let eosio := TrxTypes.N.eosio
  [ ((eosio, N.newaccount), ⟨1000, coreSymbol⟩),
    ((eosio, ⟨0xd5526ca8dacb4000⟩), ⟨1000, coreSymbol⟩),        -- updateauth
    ((eosio, ⟨0x4aa2aca8dacb4000⟩), ⟨1000, coreSymbol⟩),        -- deleteauth
    ((eosio, N.transfer), ⟨100, coreSymbol⟩),
    ((eosio, ⟨0xdd32a00000000000⟩), ⟨500, coreSymbol⟩),         -- vote
    ((eosio, ⟨0xd4d7752bea000000⟩), ⟨100, coreSymbol⟩),         -- unfreeze
    ((eosio, ⟨0xdd32a25cd2000000⟩), ⟨500, coreSymbol⟩),         -- vote4ram
    ((eosio, ⟨0xd4d7752beab9a400⟩), ⟨100, coreSymbol⟩),         -- unfreezeram
    ((eosio, ⟨0x444ce90000000000⟩), ⟨300, coreSymbol⟩),         -- claim
    ((eosio, ⟨0xd5526ca8f5000000⟩), ⟨100 * 10000, coreSymbol⟩), -- updatebp
    ((eosio, TrxTypes.N.setemergency), ⟨10 * 10000, coreSymbol⟩),
    ((N.token, N.transfer), ⟨100, coreSymbol⟩),
    ((N.token, ⟨0x7631a50000000000⟩), ⟨100, coreSymbol⟩),       -- issue
    ((N.token, ⟨0x45d46ca800000000⟩), ⟨10 * 10000, coreSymbol⟩), -- create
    ((eosio, ⟨0xbaa54da8f5000000⟩), ⟨100 * 10000, coreSymbol⟩), -- removebp
    ((eosio, ⟨0xc2b263b800000000⟩), ⟨1000, coreSymbol⟩),        -- setabi
    ((eosio, ⟨0xc2b2b52800000000⟩), ⟨1000, coreSymbol⟩),        -- setfee
    ((eosio, TrxTypes.N.setcode), ⟨1000, coreSymbol⟩),
    ((eosio, ⟨0xc2b28a4dcb600000⟩), ⟨100, coreSymbol⟩),         -- setconifg
    ((eosio, ⟨0x41a685452a89bc00⟩), ⟨5000, coreSymbol⟩),        -- canceldelay
    ((eosio, ⟨0x8ba7036b2d000000⟩), ⟨5000, coreSymbol⟩),        -- linkauth
    ((eosio, ⟨0xd4e2e9c0dacb4000⟩), ⟨5000, coreSymbol⟩),        -- unlinkauth
    ((eosio, ⟨0x6a8d7c9d46c80000⟩), ⟨100, coreSymbol⟩),         -- heartbeat
    ((N.msig, ⟨0xade95a6140000000⟩), ⟨15000, coreSymbol⟩),      -- propose
    ((N.msig, ⟨0x356b7a6d40000000⟩), ⟨10000, coreSymbol⟩),      -- approve
    ((N.msig, ⟨0xd4cd5ade9b500000⟩), ⟨10000, coreSymbol⟩),      -- unapprove
    ((N.msig, ⟨0x41a6854400000000⟩), ⟨10000, coreSymbol⟩),      -- cancel
    ((N.msig, ⟨0x5754800000000000⟩), ⟨10000, coreSymbol⟩) ]     -- exec

/-- `get_native_fee`. -/
def getNativeFee (account act : Name) : Asset :=
  ((feeMap.find? fun e => e.1 = (account, act)).map (·.2)).getD Asset.zero

/-- The actions of other accounts that cost what the system account's action
    of that name costs. -/
def paysSystemFee (account act : Name) : Prop :=
  act = N.newaccount ∧ (account = N.bios ∨ account = N.token) ∨
    act = N.transfer ∧ (account = N.victor ∨ account = N.eosvictor)

instance (account act : Name) : Decidable (paysSystemFee account act) := by
  unfold paysSystemFee
  infer_instance

/-- `txfee_manager::get_required_fee` of an action. -/
def getRequiredFee (t : Tables σ) (account act : Name) : Except FcException Asset :=
  if paysSystemFee account act ∧ getNativeFee TrxTypes.N.eosio act ≠ Asset.zero then
    .ok (getNativeFee TrxTypes.N.eosio act)
  else
    match t.actionFees account act with
    | some row =>
      if row.fee ≠ Asset.zero then .ok row.fee else nativeOrThrow
    | none => nativeOrThrow
where
  nativeOrThrow : Except FcException Asset :=
    if getNativeFee account act ≠ Asset.zero then .ok (getNativeFee account act)
    else .error ⟨.actionValidate,
      "action $\x7bacc\x7d $\x7bact\x7d name not include in feemap or db"⟩

/-- `txfee_manager::get_required_fee` of a transaction. -/
def getRequiredFeeOfTrx (t : Tables σ) (trx : Transaction) : Except FcException Asset :=
  trx.actions.foldlM (fun fee act => do
    let required ← getRequiredFee t act.account act.name
    fee.add required) Asset.zero

/-! ## The fee actions -/

/-- `eosio_contract_assert`. -/
def eosioContractAssert {τ : Type} (c : Prop) [Decidable c] (msg : String) :
    EStateM FcException τ Unit :=
  require c .eosioAssertMessage ("assertion failure with message: " ++ msg)

/-- `native_multi_index::get`. -/
def getRow {τ α : Type} (row : Option α) (msg : String) : EStateM FcException τ α :=
  match row with
  | some a => pure a
  | none => throw ⟨.eosioAssertMessage, "assertion failure with message: " ++ msg⟩

/-- `apply_eosio_onfee`.  What it changed before it throws stays changed. -/
def applyEosioOnfee (data : FeeParameter) : EStateM FcException (Tables σ) Unit := do
  let t ← get
  let available ← getRow (t.balances data.name) "account is not found in accounts table"
  let enough ← raise (data.fee.le available)
  eosioContractAssert (enough = true) "overdrawn available balance"
  let left ← raise (available.sub data.fee)
  set (t.setBalance data.name left)
  if data.producer = noName then pure ()
  else do
    let t ← get
    let bp ← getRow (t.bps data.producer) "bpname is not registered"
    let pool ← raise (bp.rewardsPool.add data.fee)
    set (t.setBp data.producer { bp with rewardsPool := pool })

/-- `apply_eosio_voteagefee`. -/
def applyEosioVoteagefee (headBlockNum : Nat) (data : FeeParameter) :
    EStateM FcException (Tables σ) Unit := do
  let t ← get
  let _ ← getRow (t.balances data.name) "account is not found in accounts table"
  let bp ← getRow (t.bps data.producer) "bpname is not registered"
  let voteage :=
    (toI64 (data.fee.amount * getNumConfigOnChain t Config.votageRatio 10000)).tdiv 10000
  let newestTotalVoteage :=
    toI64 (bp.totalVoteage + bp.totalStaked * subU32 headBlockNum bp.voteageUpdateHeight)
  let vote ← getRow (t.votes data.name data.producer)
    "voter have not add votes to the the producer yet"
  let newestVoteage := toI64 (vote.voteage +
    vote.staked.amount.tdiv 10000 * subU32 headBlockNum vote.voteageUpdateHeight)
  eosioContractAssert (0 < voteage ∧ voteage ≤ newestVoteage)
    "voteage must be greater than zero and have sufficient voteage!"
  set ((t.setVote data.name data.producer
      { vote with
        voteage := toI64 (newestVoteage - voteage)
        voteageUpdateHeight := headBlockNum }).setBp
    data.producer
      { bp with
        totalVoteage := toI64 (newestTotalVoteage - voteage)
        voteageUpdateHeight := headBlockNum })

end FeeRule
