import Mathlib.Algebra.Order.Ring.Nat
import Mathlib.Data.List.AList

/-! # Base types of the chain library

    Names, digests and the exceptions that the modelled functions throw.
    Machine integers are natural numbers; where the source's arithmetic can
    leave its width the model says so with `addU32` and `subU32`. -/

namespace ChainTypes

/-- `eosio::chain::name`: a 64-bit value. -/
structure Name where
  value : UInt64
deriving DecidableEq, Repr, Inhabited

/-- `digest_type`, read as the number whose most significant word is
    `_hash[0]`, so that `sha256_less` is `<`. -/
abbrev Digest := Nat

abbrev BlockId := Digest

/-- A public key, by its packed bytes. -/
abbrev PublicKey := List UInt8

instance : LawfulBEq PublicKey := inferInstance

/-- `uint32_t` addition. -/
def addU32 (a b : Nat) : Nat := (a + b) % 2 ^ 32

/-- `uint32_t` subtraction. -/
def subU32 (a b : Nat) : Nat := (a + (2 ^ 32 - b % 2 ^ 32)) % 2 ^ 32

/-- What `int64_t` arithmetic makes of a result. -/
def toI64 (x : Int) : Int := x.bmod (2 ^ 64)

theorem toI64_of_fits {x : Int} (hlow : -2 ^ 63 ≤ x) (hhigh : x < 2 ^ 63) : toI64 x = x := by
  rw [toI64, Int.bmod]
  omega

theorem addU32_of_lt {a b : Nat} (h : a + b < 2 ^ 32) : addU32 a b = a + b :=
  Nat.mod_eq_of_lt h

theorem subU32_of_le {a b : Nat} (ha : a < 2 ^ 32) (h : b ≤ a) : subU32 a b = a - b := by
  unfold subU32
  omega

/-- `controller::block_status`. -/
inductive BlockStatus where
  | irreversible
  | validated
  | complete
  | incomplete
deriving DecidableEq, Repr

/-- `db_read_mode`. -/
inductive ReadMode where
  | speculative
  | head
  | readOnly
  | irreversible
deriving DecidableEq, Repr

/-- The exception classes of `exceptions.hpp` that the model distinguishes. -/
inductive ExceptionType where
  | blockValidate
  | unlinkableBlock
  | producerDoubleConfirm
  | wrongProducer
  | wrongSigningKey
  | producerSchedule
  | invalidBlockHeaderExtension
  | illFormedProtocolFeatureActivation
  | protocolFeature
  | forkDatabase
  | forkDbBlockNotFound
  | blockLogAppendFail
  | transaction
  | unknownTransaction
  | txDuplicate
  | txNoAuths
  | expiredTx
  | txExpTooFar
  | invalidRefBlock
  | invalidActionArgs
  | actionValidate
  | nameType
  | assetType
  | eosioAssertMessage
  | missingAuth
  | unauthorizedRamUsageIncrease
  | cfaInsideGeneratedTx
  | invalidTransactionExtension
  | illFormedDeferredTransactionGenerationContext
  | deferredTxDuplicate
  | resourceLimit
  | rateLimitingStateInconsistent
  | ramUsageExceeded
  | txNetUsageExceeded
  | txCpuUsageExceeded
  | blockResourceExhausted
  | subjectiveBlockProduction
  | blockNetUsageExceeded
  | greylistNetUsageExceeded
  | blockCpuUsageExceeded
  | greylistCpuUsageExceeded
  | deadline
  | leewayDeadline
  | actorWhitelist
  | actorBlacklist
  | contractWhitelist
  | contractBlacklist
  | actionBlacklist
  | keyBlacklist
  | sigVariableSizeLimit
  | disallowedTransactionExtensionsBadBlock
  | protocolFeatureBadBlock
  | invalidContractVmType
  | invalidContractVmVersion
  | setExactCode
  | accountNameExists
  | accountQuery
  | permissionQuery
  | irrelevantAuth
  | unlinkableMinPermissionAction
  | unsatisfiedAuthorization
  | txIrrelevantSig
  | txNotFound
  | unactivatedKeyType
  | snapshot
  | plugin
  | blockLog
  | blockLogUnsupportedVersion
  | blockLogNotFound
  | reversibleBlocks
  | invalidTablePayer
  | tableAccessViolation
  | tableNotInCache
  | tableOperationNotPermitted
  | invalidTableIterator
  | database
  | keyNotFound
  | uniqueness
  | abi
  | unsupportedAbiVersion
  | duplicateAbiTypeDef
  | duplicateAbiStructDef
  | duplicateAbiActionDef
  | duplicateAbiTableDef
  | duplicateAbiErrMsgDef
  | duplicateAbiVariantDef
  | invalidTypeInsideAbi
  | abiCircularDef
  | abiRecursionDepth
  | unpack
  | pack
  | badCast
  | outOfRange
  | stdException
  | undefinedBehaviour
deriving DecidableEq, Repr

/-- A thrown exception: its class and the text of its message. -/
structure FcException where
  type : ExceptionType
  what : String
deriving DecidableEq, Repr

/-- What the database throws is a `std::exception` and no `fc::exception`. -/
def FcException.isStd (e : FcException) : Bool :=
  decide (e.type = .keyNotFound ∨ e.type = .uniqueness)

/-- `FC_RETHROW_EXCEPTIONS`. -/
def FcException.asFc (e : FcException) : FcException :=
  if e.isStd then ⟨.stdException, e.what⟩ else e

/-- `catch( const fc::exception& )`. -/
def FcException.caught (e : FcException) : Option FcException :=
  if e.isStd then none else some e

/-- `EOS_ASSERT`. -/
def eosAssert (c : Prop) [Decidable c] (t : ExceptionType) (what : String) :
    Except FcException Unit :=
  if c then .ok () else .error ⟨t, what⟩

/-- An `EOS_ASSERT` that lets the run go on held. -/
theorem eosAssert_ok {c : Prop} [Decidable c] {t : ExceptionType} {w : String}
    {u : Unit} (h : eosAssert c t w = .ok u) : c := by
  unfold eosAssert at h
  by_cases hc : c
  · exact hc
  · rw [if_neg hc] at h
    exact nomatch h

theorem eosAssert_ok_iff {c : Prop} [Decidable c] {t : ExceptionType} {w : String} :
    eosAssert c t w = .ok () ↔ c :=
  ⟨eosAssert_ok, fun hc => if_pos hc⟩

theorem eosAssert_throws_iff {c : Prop} [Decidable c] {t : ExceptionType} {what : String} :
    (∃ e, eosAssert c t what = .error e) ↔ ¬ c := by
  by_cases hc : c
  · simp [eosAssert, hc]
  · simp [eosAssert, hc]

theorem eosAssert_error {c : Prop} [Decidable c] {t : ExceptionType} {msg : String}
    {e : FcException} (h : eosAssert c t msg = .error e) : e.type = t := by
  unfold eosAssert at h
  split at h
  · cases h
  · cases h
    rfl

/-- A bind of two fallible computations succeeds only when both do. -/
theorem except_bind_ok {ε α β : Type} {x : Except ε α} {f : α → Except ε β}
    {b : β} (h : x >>= f = .ok b) : ∃ a, x = .ok a ∧ f a = .ok b := by
  cases x with
  | error e => exact nomatch h
  | ok a => exact ⟨a, rfl, h⟩

/-- A run goes past an `EOS_ASSERT` exactly where it holds. -/
theorem eosAssert_bind_ok_iff {β : Type} {c : Prop} [Decidable c] {t : ExceptionType}
    {w : String} {f : Unit → Except FcException β} {b : β} :
    (eosAssert c t w >>= f) = .ok b ↔ c ∧ f () = .ok b := by
  constructor
  · intro h
    obtain ⟨_, hc, hf⟩ := except_bind_ok h
    exact ⟨eosAssert_ok hc, hf⟩
  · rintro ⟨hc, hf⟩
    rw [eosAssert, if_pos hc]
    exact hf

theorem eosAssert_bind_throws_iff {α : Type} {c : Prop} [Decidable c] {t : ExceptionType}
    {what : String} {a : α} :
    (∃ e, (eosAssert c t what >>= fun _ => pure a) = .error e) ↔ ¬ c := by
  by_cases hc : c
  · simp [eosAssert, hc, bind, Except.bind, pure, Except.pure]
  · simp [eosAssert, hc, bind, Except.bind]

/-- A bind of two fallible computations fails where one of them does. -/
theorem except_bind_error {ε α β : Type} {x : Except ε α} {f : α → Except ε β}
    {e : ε} (h : x >>= f = .error e) : x = .error e ∨ ∃ a, x = .ok a ∧ f a = .error e := by
  cases x with
  | error e' => exact .inl (congrArg Except.error (Except.error.inj h))
  | ok a => exact .inr ⟨a, rfl, h⟩

/-- A loop of fallible computations succeeds only when all of them do. -/
theorem except_forM_ok {ε α : Type} {f : α → Except ε Unit} {l : List α} {u : Unit}
    (h : l.forM f = .ok u) : ∀ a ∈ l, f a = .ok () := by
  induction l with
  | nil => exact List.forall_mem_nil _
  | cons a rest ih =>
    obtain ⟨_, hfirst, hrest⟩ := except_bind_ok h
    exact List.forall_mem_cons.mpr ⟨hfirst, ih hrest⟩

/-- What reading or writing a file gives; a failure is an exception. -/
def fromFile {α : Type} : Option α → Except FcException α
  | some a => .ok a
  | none => .error ⟨.stdException, "file error"⟩

theorem fromFile_ok {α : Type} {x : Option α} {a : α} (h : fromFile x = .ok a) : x = some a := by
  cases x with
  | none => cases h
  | some b => exact congrArg some (Except.ok.inj h)

/-- What is not there is an exception. -/
def orThrow {α : Type} (x : Option α) (t : ExceptionType) (what : String) : Except FcException α :=
  match x with
  | some a => .ok a
  | none => .error ⟨t, what⟩

end ChainTypes
