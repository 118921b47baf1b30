import EosForce.TrxTypesProofs

/-! # Resource limits

    `resource_limits_manager` as the transaction pipeline uses it: moving
    averages of what accounts used, the limits derived from their weights, and
    what a block has used so far.  Numbers are `uint64_t` unless said
    otherwise; products are taken in 128 bits. -/

namespace Resource

open ChainTypes TrxTypes

def rateLimitingPrecision : Nat := 1000 * 1000
def maximumElasticResourceMultiplier : Nat := 1000
def uint64Max : Nat := 2 ^ 64 - 1
def int64Max : Nat := 2 ^ 63 - 1

/-! ## Moving averages -/

/-- `exponential_moving_average_accumulator`. -/
structure UsageAccumulator where
  lastOrdinal : Nat := 0
  valueEx : Nat := 0
  consumed : Nat := 0
deriving DecidableEq, Repr

def integerDivideCeil (num den : Nat) : Nat :=
  num / den + if 0 < num % den then 1 else 0

/-- The part of `add` that moves the average to a new period. -/
def UsageAccumulator.decayTo (u : UsageAccumulator) (ordinal windowSize : Nat) :
    Except FcException UsageAccumulator := do
  if u.lastOrdinal = ordinal then pure u
  else do
    eosAssert (u.lastOrdinal < ordinal) .resourceLimit
      "new ordinal cannot be less than the previous ordinal"
    if ordinal < u.lastOrdinal + windowSize then do
      let left := windowSize - (ordinal - u.lastOrdinal)
      eosAssert (left = 0 ∨ u.valueEx ≤ uint64Max / left) .rateLimitingStateInconsistent
        "Usage exceeds maximum value representable after extending for precision"
      let v := u.valueEx * left / windowSize
      pure ⟨ordinal, v, integerDivideCeil v rateLimitingPrecision⟩
    else pure ⟨ordinal, 0, 0⟩

/-- What `units` add to `value_ex`. -/
def contribution (units windowSize : Nat) : Nat :=
  integerDivideCeil (units * rateLimitingPrecision) windowSize

/-- `add`. -/
def UsageAccumulator.add (u : UsageAccumulator) (units ordinal windowSize : Nat) :
    Except FcException UsageAccumulator := do
  eosAssert (units ≤ uint64Max / rateLimitingPrecision) .rateLimitingStateInconsistent
    "Usage exceeds maximum value representable after extending for precision"
  eosAssert (units ≤ uint64Max - u.consumed) .rateLimitingStateInconsistent
    "Overflow in tracked usage when adding usage!"
  eosAssert (contribution units windowSize ≤ uint64Max) .rateLimitingStateInconsistent
    "Casting a higher bit integer value to a lower bit integer value which cannot contain the value"
  eosAssert (contribution units windowSize ≤ uint64Max - u.valueEx)
    .rateLimitingStateInconsistent "Overflow in accumulated value when adding usage!"
  let u ← u.decayTo ordinal windowSize
  pure { u with
    valueEx := u.valueEx + contribution units windowSize
    consumed := u.consumed + units }

/-! ## The tables -/

/-- `resource_usage_object`. -/
structure ResourceUsage where
  netUsage : UsageAccumulator := {}
  cpuUsage : UsageAccumulator := {}
  ramUsage : Nat := 0
deriving DecidableEq, Repr

/-- The weights of a `resource_limits_object`. -/
structure ResourceWeights where
  netWeight : Int := -1
  cpuWeight : Int := -1
deriving DecidableEq, Repr

/-- The resource tables: `resource_limits_state_object` and
    `resource_limits_config_object` as far as transactions read them, and the
    per-account rows. -/
structure Resources where
  usage : Name → Option ResourceUsage
  weights : Name → Option ResourceWeights
  pendingWeights : Name → Option ResourceWeights := fun _ => none
  pendingNetUsage : Nat := 0
  pendingCpuUsage : Nat := 0
  totalNetWeight : Nat := 0
  totalCpuWeight : Nat := 0
  virtualNetLimit : Nat
  virtualCpuLimit : Nat
  maxNet : Nat
  maxCpu : Nat
  accountNetUsageAverageWindow : Nat
  accountCpuUsageAverageWindow : Nat

abbrev ResourceM := EStateM FcException Resources

variable (r : Resources) (a : Name)

def getUsage : Except FcException ResourceUsage :=
  match r.usage a with
  | some u => .ok u
  | none => .error ⟨.keyNotFound, "unknown key"⟩

def setUsage (u : ResourceUsage) : Resources :=
  { r with usage := fun b => if b = a then some u else r.usage b }

/-- `get_account_limits`, less the RAM limit. -/
def getAccountWeights : Except FcException ResourceWeights :=
  match r.pendingWeights a, r.weights a with
  | some w, _ => .ok w
  | none, some w => .ok w
  | none, none => .error ⟨.keyNotFound, "unknown key"⟩

/-- The new usage row of an account after a transaction. -/
def billed (u : ResourceUsage) (cpuUsage netUsage timeSlot : Nat) :
    Except FcException ResourceUsage := do
  let net ← u.netUsage.add netUsage timeSlot r.accountNetUsageAverageWindow
  let cpu ← u.cpuUsage.add cpuUsage timeSlot r.accountCpuUsageAverageWindow
  pure { u with netUsage := net, cpuUsage := cpu }

/-- One account of `update_account_usage`. -/
def updateUsage (timeSlot : Nat) (a : Name) : ResourceM Unit := do
  let r ← get
  let u ← raise (getUsage r a)
  let u' ← raise (billed r u 0 0 timeSlot)
  set (setUsage r a u')

/-- `update_account_usage`. -/
def updateAccountUsage (accounts : List Name) (timeSlot : Nat) : ResourceM Unit :=
  accounts.forM (updateUsage timeSlot)

/-- Whether a usage is within the share of the capacity that a weight gives. -/
def withinShare (valueEx windowSize virtualLimit : Nat) (weight : Int) (totalWeight : Nat) : Prop :=
  0 ≤ weight → 0 < totalWeight →
    valueEx * windowSize / rateLimitingPrecision ≤
      virtualLimit * windowSize * weight.toNat % 2 ^ 128 / totalWeight

instance (valueEx windowSize virtualLimit : Nat) (weight : Int) (totalWeight : Nat) :
    Decidable (withinShare valueEx windowSize virtualLimit weight totalWeight) := by
  unfold withinShare
  infer_instance

/-- One account of `add_transaction_usage`. -/
def addUsage (cpuUsage netUsage timeSlot : Nat) (a : Name) : ResourceM Unit := do
  let r ← get
  let u ← raise (getUsage r a)
  let w ← raise (getAccountWeights r a)
  let u' ← raise (billed r u cpuUsage netUsage timeSlot)
  set (setUsage r a u')
  require (withinShare u'.cpuUsage.valueEx r.accountCpuUsageAverageWindow
      r.virtualCpuLimit w.cpuWeight r.totalCpuWeight) .txCpuUsageExceeded
    "authorizing account '$\x7bn\x7d' has insufficient cpu resources for this transaction"
  require (withinShare u'.netUsage.valueEx r.accountNetUsageAverageWindow
      r.virtualNetLimit w.netWeight r.totalNetWeight) .txNetUsageExceeded
    "authorizing account '$\x7bn\x7d' has insufficient net resources for this transaction"

/-- The part of `add_transaction_usage` that accounts for the block. -/
def addBlockUsage (cpuUsage netUsage : Nat) : ResourceM Unit := do
  modify fun r => { r with
    pendingCpuUsage := (r.pendingCpuUsage + cpuUsage) % 2 ^ 64
    pendingNetUsage := (r.pendingNetUsage + netUsage) % 2 ^ 64 }
  let r ← get
  require (r.pendingCpuUsage ≤ r.maxCpu) .blockResourceExhausted
    "Block has insufficient cpu resources"
  require (r.pendingNetUsage ≤ r.maxNet) .blockResourceExhausted
    "Block has insufficient net resources"

/-- `add_transaction_usage`. -/
def addTransactionUsage (accounts : List Name) (cpuUsage netUsage timeSlot : Nat) :
    ResourceM Unit := do
  accounts.forM (addUsage cpuUsage netUsage timeSlot)
  addBlockUsage cpuUsage netUsage

/-- `add_pending_ram_usage`. -/
def addPendingRamUsage (ramDelta : Int) : ResourceM Unit := do
  if ramDelta = 0 then pure ()
  else do
    let r ← get
    let u ← raise (getUsage r a)
    require (ramDelta ≤ 0 ∨ ramDelta.toNat ≤ uint64Max - u.ramUsage) .transaction
      "Ram usage delta would overflow UINT64_MAX"
    require (0 ≤ ramDelta ∨ (-ramDelta).toNat ≤ u.ramUsage) .transaction
      "Ram usage delta would underflow UINT64_MAX"
    set (setUsage r a { u with ramUsage := (u.ramUsage + ramDelta).toNat })

/-- `initialize_account`. -/
def initializeAccount : ResourceM Unit := do
  let r ← get
  require (r.weights a = none ∧ r.usage a = none) .uniqueness
    "could not insert object, most likely a uniqueness constraint was violated"
  set { setUsage r a {} with
    weights := fun b => if b = a then some {} else r.weights b }

/-- `set_account_limits`, less the RAM limit, which nothing reads. -/
def setAccountLimits (w : ResourceWeights) : ResourceM Unit := do
  let r ← get
  let _ ← raise (getAccountWeights r a)
  set { r with pendingWeights := fun b => if b = a then some w else r.pendingWeights b }

/-- `verify_account_ram_usage`; the limit is `get_account_ram_limit`. -/
def verifyAccountRamUsage (ramBytes : Int) : ResourceM Unit := do
  let r ← get
  let _ ← raise (getAccountWeights r a)
  let u ← raise (getUsage r a)
  require (0 ≤ ramBytes → u.ramUsage ≤ ramBytes.toNat) .ramUsageExceeded
    "account $\x7baccount\x7d has insufficient ram; needs $\x7bneeds\x7d bytes has $\x7bavailable\x7d bytes"

/-! ## What accounts can pay -/

/-- `uint64_t` subtraction. -/
def subU64 (a b : Nat) : Nat := (a + (2 ^ 64 - b % 2 ^ 64)) % 2 ^ 64

/-- `get_block_net_limit` and `get_block_cpu_limit`. -/
def getBlockNetLimit : Nat := subU64 r.maxNet r.pendingNetUsage
def getBlockCpuLimit : Nat := subU64 r.maxCpu r.pendingCpuUsage

/-- `impl::downgrade_cast<int64_t>`. -/
def downgradeCast (v : Nat) : Except FcException Int := do
  eosAssert (v ≤ int64Max) .rateLimitingStateInconsistent
    "Casting a higher bit integer value to a lower bit integer value which cannot contain the value"
  pure v

/-- What an account may still use of a resource, `-1` for no limit, and
    whether the greylist lowered it. -/
def accountLimit (windowSize virtualLimit max valueEx : Nat) (weight : Int)
    (totalWeight greylistLimit : Nat) : Except FcException (Int × Bool) := do
  if weight < 0 ∨ totalWeight = 0 then pure (-1, false)
  else do
    let greylisted := decide (max * greylistLimit % 2 ^ 64 < virtualLimit)
    let capacity := windowSize *
      if greylisted then max * greylistLimit % 2 ^ 64 else virtualLimit
    let maxUse := capacity * weight.toNat % 2 ^ 128 / totalWeight
    let used := integerDivideCeil (valueEx * windowSize) rateLimitingPrecision
    -- the difference is zero where nothing is left, and then it fits
    let available ← downgradeCast (maxUse - used)
    let _ ← downgradeCast used
    let _ ← downgradeCast maxUse
    pure (available, greylisted)

/-- `get_account_cpu_limit`. -/
def getAccountCpuLimit (greylistLimit : Nat) :
    Except FcException (Int × Bool) := do
  let u ← getUsage r a
  let w ← getAccountWeights r a
  accountLimit r.accountCpuUsageAverageWindow r.virtualCpuLimit r.maxCpu
    u.cpuUsage.valueEx w.cpuWeight r.totalCpuWeight greylistLimit

/-- `get_account_net_limit`. -/
def getAccountNetLimit (greylistLimit : Nat) :
    Except FcException (Int × Bool) := do
  let u ← getUsage r a
  let w ← getAccountWeights r a
  accountLimit r.accountNetUsageAverageWindow r.virtualNetLimit r.maxNet
    u.netUsage.valueEx w.netWeight r.totalNetWeight greylistLimit

end Resource
