import EosForce.ChainTypesProofs
import EosForce.EffectProofs

/-! # Transactions, actions and receipts

    The data that the transaction pipeline handles.  Serialized data is a list
    of bytes; how it is packed belongs to the environment of the pipeline.  An
    action trace carries two fields that the source does not have: where the
    action came from, and what fee was asked for it when it was scheduled. -/

namespace TrxTypes

open ChainTypes

/-! ## Stateful code that throws -/

/-- `EOS_ASSERT` in code that changes state. -/
def require {σ : Type} (c : Prop) [Decidable c] (t : ExceptionType) (what : String) :
    EStateM FcException σ Unit :=
  if c then pure () else throw ⟨t, what⟩

/-- A pure computation that throws, in code that changes state. -/
def raise {σ α : Type} (x : Except FcException α) : EStateM FcException σ α :=
  match x with
  | .ok a => pure a
  | .error e => throw e

variable {τ α : Type}

variable {t : ExceptionType}

theorem require_pos {c : Prop} [Decidable c] {w : String} (hc : c) (s : τ) :
    require c t w s = .ok () s := by
  rw [require, if_pos hc]
  rfl

theorem require_neg {c : Prop} [Decidable c] {w : String} (hc : ¬ c) (s : τ) :
    require c t w s = .error ⟨t, w⟩ s := by
  rw [require, if_neg hc]
  rfl

/-- A check that lets the run go on held, and changed nothing. -/
theorem require_ok {c : Prop} [Decidable c] {w : String} {s s' : τ} {u : Unit}
    (h : require c t w s = .ok u s') : c ∧ s' = s := by
  by_cases hc : c
  · rw [require_pos hc] at h
    cases h
    exact ⟨hc, rfl⟩
  · rw [require_neg hc] at h
    exact nomatch h

variable {x : Except FcException α}

theorem raise_ok {a : α} {s s' : τ} (h : raise x s = .ok a s') : x = .ok a ∧ s' = s := by
  cases x with
  | error e => exact nomatch h
  | ok b =>
    cases h
    exact ⟨rfl, rfl⟩

theorem raise_bind_ok {β : Type} {f : α → EStateM FcException τ β} {a : α} (h : x = .ok a) (s : τ) :
    (raise x >>= f) s = f a s := by
  rw [h]
  rfl

theorem reads_require {c : Prop} [Decidable c] {w : String} :
    Effect.Reads (require c t w : EStateM FcException τ Unit) := fun _ _ _ h => (require_ok h).2

theorem reads_raise :
    Effect.Reads (raise x : EStateM FcException τ α) := fun _ _ _ h => (raise_ok h).2

theorem require_bind_inv {β : Type} {c : Prop} [Decidable c] {w : String}
    {f : Unit → EStateM FcException τ β} {s s' : τ} {b : β}
    (h : (require c t w >>= f) s = .ok b s') : c ∧ f () s = .ok b s' := by
  obtain ⟨_, hc, h⟩ := reads_require.bind_inv h
  exact ⟨(require_ok hc).1, h⟩

theorem raise_bind_inv {β : Type} {f : α → EStateM FcException τ β} {s s' : τ} {b : β}
    (h : (raise x >>= f) s = .ok b s') : ∃ a, x = .ok a ∧ f a s = .ok b s' := by
  obtain ⟨a, ha, h⟩ := reads_raise.bind_inv h
  exact ⟨a, (raise_ok ha).1, h⟩

/-! ## Names -/

/-- The empty name, `name{}`. -/
def noName : Name := ⟨0⟩

namespace N

def eosio : Name := ⟨0x5530ea0000000000⟩
def onfee : Name := ⟨0xa4d6a50000000000⟩
def voteagefee : Name := ⟨0xdd32a3314b528000⟩
def onblock : Name := ⟨0xa4cf1a2200000000⟩
def onerror : Name := ⟨0xa4d57bd2e0000000⟩
def setemergency : Name := ⟨0xc2b2a92aec54d1e0⟩
def setcode : Name := ⟨0xc2b28a2540000000⟩
def active : Name := ⟨0x3232eda800000000⟩
def eosioCode : Name := ⟨0x5530ea01144a8000⟩

end N

abbrev Bytes := List UInt8

/-! ## Assets -/

/-- The core symbol. -/
def coreSymbol : Nat := 0

/-- `asset`; the sums that the pipeline forms are assumed to fit `int64_t`. -/
structure Asset where
  amount : Int
  symbol : Nat := coreSymbol
deriving DecidableEq, Repr

/-- `asset{ 0 }`. -/
def Asset.zero : Asset := ⟨0, coreSymbol⟩

/-- `operator +=`. -/
def Asset.add (a b : Asset) : Except FcException Asset := do
  eosAssert (a.symbol = b.symbol) .assetType "addition between two different asset is not allowed"
  pure ⟨a.amount + b.amount, a.symbol⟩

/-- `operator -` and `operator -=`. -/
def Asset.sub (a b : Asset) : Except FcException Asset := do
  eosAssert (a.symbol = b.symbol) .assetType
    "subtraction between two different asset is not allowed"
  pure ⟨a.amount - b.amount, a.symbol⟩

/-- `operator <`. -/
def Asset.lt (a b : Asset) : Except FcException Bool := do
  eosAssert (a.symbol = b.symbol) .assetType
    "logical operation between two different asset is not allowed"
  pure (decide (a.amount < b.amount))

/-- `operator <=`: equal assets are not compared further. -/
def Asset.le (a b : Asset) : Except FcException Bool :=
  if a = b then pure true else a.lt b

/-! ## Actions and transactions -/

structure PermissionLevel where
  actor : Name
  permission : Name
deriving DecidableEq, Repr

structure Action where
  account : Name
  name : Name
  authorization : List PermissionLevel
  data : Bytes
deriving DecidableEq, Repr

/-- One of the two actions that charge a fee. -/
def Action.isFee (a : Action) : Prop :=
  a.account = N.eosio ∧ (a.name = N.onfee ∨ a.name = N.voteagefee)

instance (a : Action) : Decidable a.isFee := by
  unfold Action.isFee
  infer_instance

/-- `transaction::extdata_type`. -/
def feeLimitExtension : Nat := 1
def voteageFeeExtension : Nat := 2

/-- `signed_transaction`, less what identifies its reference block. -/
structure Transaction where
  expiration : Nat := 0
  refBlockNum : Nat := 0
  refBlockPrefix : Nat := 0
  maxNetUsageWords : Nat := 0
  maxCpuUsageMs : Nat := 0
  delaySec : Nat := 0
  contextFreeActions : List Action := []
  actions : List Action := []
  transactionExtensions : List (Nat × Bytes) := []
  fee : Asset := Asset.zero
deriving DecidableEq, Repr

/-- `first_authorizer`. -/
def Transaction.firstAuthorizer (t : Transaction) : Name :=
  match t.actions.flatMap (·.authorization) with
  | [] => noName
  | p :: _ => p.actor

/-- `trx.actions[0].authorization[0].actor`, where there is one. -/
def Transaction.firstActor (t : Transaction) : Option Name :=
  (t.actions.head?.bind (·.authorization.head?)).map (·.actor)

/-- The data of an extension. -/
def Transaction.extension (t : Transaction) (typ : Nat) : Option Bytes :=
  (t.transactionExtensions.find? fun e => e.1 = typ).map (·.2)

/-- `fee_paramter`, which is also what `onfee` and `voteagefee` unpack. -/
structure FeeParameter where
  name : Name
  fee : Asset
  producer : Name
deriving DecidableEq, Repr

/-! ## Traces and receipts -/

/-- Where an action in execution came from. -/
inductive Origin where
  | transaction
  | contextFree
  | inlined
  | contextFreeInline
  | notification
  | feeAction (fee : Asset)
  | implicit
deriving DecidableEq, Repr

/-- `action_trace`, as far as execution reads it.  `origin` and `required`
    are not in the source. -/
structure ActionTrace where
  act : Action
  receiver : Name
  contextFree : Bool
  creatorActionOrdinal : Nat
  origin : Origin
  required : Except FcException Asset
deriving DecidableEq, Repr

/-- `action_receipt`. -/
structure ActionReceipt where
  receiver : Name
  actDigest : Digest
  globalSequence : Nat
  recvSequence : Nat
  authSequence : List (Name × Nat)
  codeSequence : Nat
  abiSequence : Nat
deriving DecidableEq, Repr

/-- An executed action: the receipt, and what it is the receipt of. -/
structure Executed where
  receipt : ActionReceipt
  trace : ActionTrace

/-- `transaction_receipt_header::status_enum`. -/
inductive TrxStatus where
  | executed
  | softFail
  | hardFail
  | delayed
  | expired
deriving DecidableEq, Repr

/-- What a receipt is about. -/
inductive ReceiptTrx where
  | id (trxId : Digest)
  | packed (trx : Transaction)
deriving DecidableEq, Repr

/-- `transaction_receipt`. -/
structure TransactionReceipt where
  trx : ReceiptTrx
  status : TrxStatus
  cpuUsageUs : Nat
  netUsageWords : Nat
deriving DecidableEq, Repr

/-- `transaction_receipt_header`. -/
structure ReceiptHeader where
  status : TrxStatus
  cpuUsageUs : Nat
  netUsageWords : Nat
deriving DecidableEq, Repr

def TransactionReceipt.header (r : TransactionReceipt) : ReceiptHeader :=
  ⟨r.status, r.cpuUsageUs, r.netUsageWords⟩

/-- `generated_transaction_object`. -/
structure GeneratedTransaction where
  trxId : Digest
  sender : Name
  senderId : Nat
  payer : Name
  delayUntil : Nat
  expiration : Nat
  published : Nat
  trx : Transaction
deriving DecidableEq, Repr

end TrxTypes
