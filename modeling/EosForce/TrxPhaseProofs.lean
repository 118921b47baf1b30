import EosForce.PushProofs
import EosForce.ExecStepsProofs

/-! # Around the execution

    A transaction is set up before it is executed and settled afterwards.
    Neither part schedules or executes an action, and of the tables they write
    only what the authorization manager keeps.  The one thing that setting up
    decides for the execution is who pays fees. -/

namespace TrxPhase

open ChainTypes TrxTypes Effect Resource Database TrxContext ApplyContext Push StepRule
open QuietStep ExecSteps

variable {σ : Type}

/-! ## Billing leaves RAM alone -/

/-- The RAM of every account is as it was. -/
def RamKept (r r' : Resources) : Prop := ∀ a, ramOf r' a = ramOf r a

theorem RamKept.trans {r r1 r2 : Resources} (h : RamKept r r1) (h' : RamKept r1 r2) :
    RamKept r r2 :=
  fun a => (h' a).trans (h a)

theorem billed_ramUsage {r : Resources} {u u' : ResourceUsage} {cpu net slot : Nat}
    (h : billed r u cpu net slot = .ok u') : u'.ramUsage = u.ramUsage := by
  obtain ⟨n, -, h⟩ := except_bind_ok h
  obtain ⟨c, -, h⟩ := except_bind_ok h
  cases h
  rfl

theorem ramKept_setUsage {r : Resources} {a : Name} {u u' : ResourceUsage}
    (hu : getUsage r a = .ok u) (hram : u'.ramUsage = u.ramUsage) :
    RamKept r (setUsage r a u') := by
  intro b
  by_cases hb : b = a
  · subst hb
    rw [ramOf, ramOf, setUsage, getUsage_ok hu]
    dsimp only
    rw [if_pos rfl, Option.map_some, Option.map_some, hram]
  · rw [ramOf, setUsage]
    dsimp only
    rw [if_neg hb]
    rfl

/-- A billing step: look up rows, move the averages, store the row and check. -/
theorem ramKept_updateUsage (slot : Nat) (a : Name) :
    Moves RamKept (fun _ => True) (updateUsage slot a) := by
  intro r _
  rw [updateUsage, get_bind]
  refine still_bind (final_raise r) .refl fun u hu => ?_
  refine still_bind (final_raise r) .refl fun u' hu' => ?_
  exact .single (ramKept_setUsage (raise_ok hu).1 (billed_ramUsage (raise_ok hu').1))

theorem ramKept_addUsage (cpu net slot : Nat) (a : Name) :
    Moves RamKept (fun _ => True) (addUsage cpu net slot a) := by
  intro r _
  rw [addUsage, get_bind]
  refine still_bind (final_raise r) .refl fun u hu => ?_
  refine still_bind (final_raise r) .refl fun w _ => ?_
  refine still_bind (final_raise r) .refl fun u' hu' => ?_
  rw [set_bind]
  have hkept := ramKept_setUsage (raise_ok hu).1 (billed_ramUsage (raise_ok hu').1)
  refine still_bind (final_require _) (.single hkept) fun _ _ => ?_
  rw [final_require]
  exact .single hkept

theorem ramKept_addBlockUsage (cpu net : Nat) :
    Moves RamKept (fun _ => True) (addBlockUsage cpu net) :=
  .chain (.modify fun _ _ _ => rfl) fun _ => .get_bind fun _ _ =>
    .chain (.still final_require) fun _ => .still final_require

theorem ramKept_addTransactionUsage (accounts : List Name) (cpu net slot : Nat) :
    Moves RamKept (fun _ => True) (addTransactionUsage accounts cpu net slot) :=
  .chain (.forM stable_true fun a _ => ramKept_addUsage cpu net slot a) fun _ =>
    ramKept_addBlockUsage cpu net

theorem ramKept_hardFailCpuTime (node : Node) (c : Context) (b : Billing) (slot cpu : Nat) :
    Moves RamKept (fun _ => True) (hardFailCpuTime node c b slot cpu) := by
  unfold hardFailCpuTime
  split
  · exact .pure _
  · exact .chain (.forM stable_true fun a _ => ramKept_updateUsage slot a) fun _ =>
      .get_bind fun _ _ => .chain (.still final_raise) fun _ => .pure _

theorem final_verifyAccountRamUsage (a : Name) (ramBytes : Int) (r : Resources) :
    final (verifyAccountRamUsage a ramBytes r) = r := by
  unfold verifyAccountRamUsage
  rw [get_bind]
  refine still_bind (P := (· = r)) (final_raise r) rfl fun _ _ => ?_
  exact still_bind (P := (· = r)) (final_raise r) rfl fun _ _ => final_require r

theorem ramKept_verifyAccountRamUsage (a : Name) (limit : Int) :
    Moves RamKept (fun _ => True) (verifyAccountRamUsage a limit) :=
  .still (final_verifyAccountRamUsage a limit)

/-- RAM where a computation ends. -/
theorem ramKept_final {α : Type} {x : ResourceM α} (h : Moves RamKept (fun _ => True) x)
    (r : Resources) : RamKept r (final (x r)) :=
  run_rel (R := RamKept) (fun _ _ => rfl) (fun _ _ _ hab hbc => hab.trans hbc) (h r trivial)

/-- RAM after a computation that returned. -/
theorem ramKept_ok {α : Type} {x : ResourceM α} (h : Moves RamKept (fun _ => True) x)
    {r r' : Resources} {a : α} (hr : x r = .ok a r') : RamKept r r' := by
  have hkept := ramKept_final h r
  rw [hr] at hkept
  exact hkept

/-! ## What is left alone -/

/-- RAM and deferred transactions are as they were. -/
structure Kept (db db' : Db σ) : Prop where
  ram : RamKept db.resources db'.resources
  generated : db'.generated = db.generated

theorem Kept.refl (db : Db σ) : Kept db db := ⟨fun _ => rfl, rfl⟩

theorem Kept.trans {a b c : Db σ} (h : Kept a b) (h' : Kept b c) : Kept a c :=
  ⟨h.ram.trans h'.ram, h'.generated.trans h.generated⟩

/-- The tables agree, less what belongs to the authorization manager. -/
def SameTables (t t' : Tables σ) : Prop := { t' with rest := t.rest } = t

/-- Nothing is scheduled or executed, and fees stay as they are. -/
structure Aside (s s' : ExecState σ) : Prop where
  executed : s'.ctx.executed = s.ctx.executed
  traces : s'.ctx.actionTraces = s.ctx.actionTraces
  trx : s'.ctx.trx = s.ctx.trx
  delay : s'.ctx.delay = s.ctx.delay
  contextFree : s'.ctx.applyContextFree = s.ctx.applyContextFree
  feePayer : s'.ctx.feePayer = s.ctx.feePayer
  feeCosted : s'.ctx.feeCosted = s.ctx.feeCosted
  maxFeeToPay : s'.ctx.maxFeeToPay = s.ctx.maxFeeToPay
  tables : SameTables s.db.tables s'.db.tables
  ledger : Kept s.db s'.db

theorem SameTables.trans {t t' t'' : Tables σ} (h : SameTables t t') (h' : SameTables t' t'') :
    SameTables t t'' := by
  rw [SameTables] at h h' ⊢
  rw [← h, ← h']

theorem Aside.refl (s : ExecState σ) : Aside s s :=
  ⟨rfl, rfl, rfl, rfl, rfl, rfl, rfl, rfl, rfl, .refl _⟩

theorem Aside.trans {a b c : ExecState σ} (h : Aside a b) (h' : Aside b c) : Aside a c :=
  ⟨h'.executed.trans h.executed, h'.traces.trans h.traces, h'.trx.trans h.trx,
    h'.delay.trans h.delay, h'.contextFree.trans h.contextFree, h'.feePayer.trans h.feePayer,
    h'.feeCosted.trans h.feeCosted, h'.maxFeeToPay.trans h.maxFeeToPay, h.tables.trans h'.tables,
    h.ledger.trans h'.ledger⟩

/-- The computation leaves all of that alone. -/
abbrev Sets {α : Type} (x : ExecM σ α) : Prop := Moves Aside (fun _ => True) x

theorem Sets.aside {α : Type} {x : ExecM σ α} (h : Sets x) (s : ExecState σ) :
    Aside s (final (x s)) :=
  run_rel Aside.refl (fun _ _ _ hab hbc => hab.trans hbc) (h s trivial)

variable {s s' : ExecState σ}

theorem Sets.aside_ok {α : Type} {x : ExecM σ α} (h : Sets x) {a : α} (hr : x s = .ok a s') :
    Aside s s' := by
  have haside := h.aside s
  rw [hr] at haside
  exact haside

theorem sets_modifyCtx {f : Context → Context}
    (h : ∀ (db : Db σ) (c : Context), Aside ⟨db, c⟩ ⟨db, f c⟩) :
    Sets (modifyCtx f : ExecM σ Unit) :=
  .modify fun s _ => h s.db s.ctx

theorem sets_onResources {α : Type} {x : ResourceM α} (h : Moves RamKept (fun _ => True) x) :
    Sets (onResources x : ExecM σ α) :=
  .zoom fun _ _ => ⟨rfl, rfl, rfl, rfl, rfl, rfl, rfl, rfl, rfl, ramKept_final h _, rfl⟩

theorem sets_require {c : Prop} [Decidable c] {t : ExceptionType} {w : String} :
    Sets (require c t w : ExecM σ Unit) := .still final_require

theorem sets_raise {α : Type} {x : Except FcException α} : Sets (raise x : ExecM σ α) :=
  .still final_raise

/-! ## Limits -/

theorem aside_objectiveLimits (cfg : ChainConfig) (r : Resources) (db : Db σ) (c : Context) :
    Aside ⟨db, c⟩ ⟨db, objectiveLimits cfg r c⟩ := by
  rw [objectiveLimits]
  dsimp only
  split_ifs <;> exact ⟨rfl, rfl, rfl, rfl, rfl, rfl, rfl, rfl, rfl, .refl _⟩

theorem aside_accountLimits (cfg : ChainConfig) (b : Bandwidth) (db : Db σ) (c : Context) :
    Aside ⟨db, c⟩ ⟨db, accountLimits cfg b c⟩ := by
  rw [accountLimits]
  dsimp only
  split_ifs <;> exact ⟨rfl, rfl, rfl, rfl, rfl, rfl, rfl, rfl, rfl, .refl _⟩

theorem aside_finalLimits (b : Bandwidth) (db : Db σ) (c : Context) :
    Aside ⟨db, c⟩ ⟨db, finalLimits b c⟩ := by
  rw [finalLimits]
  dsimp only
  split_ifs <;> exact ⟨rfl, rfl, rfl, rfl, rfl, rfl, rfl, rfl, rfl, .refl _⟩

theorem sets_checktime : Sets (checktime : ExecM σ Unit) := by
  refine .get_bind fun s _ => ?_
  refine .chain (sets_modifyCtx fun _ _ => ⟨rfl, rfl, rfl, rfl, rfl, rfl, rfl, rfl, rfl, .refl _⟩)
    fun _ => ?_
  cases s.ctx.transactionTimer with
  | none => exact .pure _
  | some tp =>
    dsimp only
    split
    · exact .throw _
    · exact .pure _

theorem sets_checkNetUsage (node : Node) : Sets (checkNetUsage node : ExecM σ Unit) :=
  .still (final_checkNetUsage node)

theorem final_validateCpuUsageToBill (node : Node) (billedUs : Nat) (checkMinimum : Bool)
    (s : ExecState σ) : final (validateCpuUsageToBill node billedUs checkMinimum s) = s := by
  rw [validateCpuUsageToBill, get_bind]
  split
  · rfl
  · refine still_bind (P := (· = s)) (final_require s) rfl fun _ _ => ?_
    split_ifs
    · exact final_require s
    · exact final_require s
    · exact final_require s

theorem sets_validateCpuUsageToBill (node : Node) (billedUs : Nat) (checkMinimum : Bool) :
    Sets (validateCpuUsageToBill node billedUs checkMinimum : ExecM σ Unit) :=
  .still (final_validateCpuUsageToBill node billedUs checkMinimum)

theorem sets_updateBilledCpuTime : Sets (updateBilledCpuTime : ExecM σ Nat) := by
  refine .get_bind fun s _ => ?_
  split
  · exact .pure _
  · exact .chain (sets_modifyCtx fun _ _ => ⟨rfl, rfl, rfl, rfl, rfl, rfl, rfl, rfl, rfl, .refl _⟩)
      fun _ => .pure _

/-! ## Setting up -/

variable (env : Env σ) (node : Node)

theorem sets_init (initialNetUsage : Nat) : Sets (init env node initialNetUsage) := by
  refine .get_bind fun s _ => ?_
  refine .chain sets_require fun _ => ?_
  refine .chain (sets_modifyCtx (aside_objectiveLimits _ _)) fun _ => ?_
  refine .chain (.whenever fun _ => sets_validateCpuUsageToBill node _ _) fun _ => ?_
  refine .chain (sets_modifyCtx fun _ _ => ⟨rfl, rfl, rfl, rfl, rfl, rfl, rfl, rfl, rfl, .refl _⟩)
    fun _ => ?_
  refine .chain (sets_onResources (.forM stable_true fun a _ => ramKept_updateUsage _ a)) fun _ =>
    .get_bind fun s' _ => ?_
  refine .chain sets_raise fun b => ?_
  refine .chain (sets_modifyCtx (aside_accountLimits _ b)) fun _ => ?_
  refine .chain (.whenever fun _ => ?_) fun _ => ?_
  · exact .chain (sets_modifyCtx fun _ _ => ⟨rfl, rfl, rfl, rfl, rfl, rfl, rfl, rfl, rfl, .refl _⟩)
      fun _ => sets_checkNetUsage node
  · exact .chain sets_checktime fun _ =>
      sets_modifyCtx fun _ _ => ⟨rfl, rfl, rfl, rfl, rfl, rfl, rfl, rfl, rfl, .refl _⟩

theorem sets_initForImplicitTrx : Sets (initForImplicitTrx env node) := by
  refine .get_bind fun s _ => ?_
  refine .chain (.whenever fun _ => .throw _) fun _ => ?_
  exact .chain (sets_modifyCtx fun _ _ => ⟨rfl, rfl, rfl, rfl, rfl, rfl, rfl, rfl, rfl, .refl _⟩)
    fun _ => sets_init env node 0

theorem sets_initForInputTrx (unprunableSize prunableSize : Nat) (skipRecording : Bool) :
    Sets (initForInputTrx env node unprunableSize prunableSize skipRecording) := by
  refine .get_bind fun s _ => ?_
  refine .chain (.whenever fun _ => .throw _) fun _ => ?_
  refine .chain (sets_modifyCtx fun _ _ => ⟨rfl, rfl, rfl, rfl, rfl, rfl, rfl, rfl, rfl, .refl _⟩)
    fun _ => ?_
  refine .chain (.whenever fun _ => ?_) fun _ => ?_
  · exact .chain sets_raise fun _ => .chain sets_raise fun _ => sets_raise
  · refine .chain (sets_init env node _) fun _ => .whenever fun _ => .get_bind fun s' _ => ?_
    exact .chain sets_require fun _ =>
      .modify fun _ _ => ⟨rfl, rfl, rfl, rfl, rfl, rfl, rfl, rfl, rfl, fun _ => rfl, rfl⟩

/-- The state of a deferred transaction, whose context-free actions are left
    out. -/
def withoutContextFree (s : ExecState σ) : ExecState σ :=
  { s with ctx := { s.ctx with applyContextFree := false } }

variable {u : Unit}

theorem aside_initForDeferredTrx {published : Nat}
    (h : initForDeferredTrx env node published s = .ok u s') : Aside (withoutContextFree s) s' := by
  rw [initForDeferredTrx, get_bind] at h
  obtain ⟨_, s1, hext, h1⟩ := bind_ok_inv h
  have hset : Aside s s1 := Sets.aside_ok (.whenever fun _ => .throw _) hext
  rw [modifyCtx_bind] at h1
  have hinit := (sets_init env node 0).aside_ok h1
  exact ⟨hinit.executed.trans hset.executed, hinit.traces.trans hset.traces,
    hinit.trx.trans hset.trx, hinit.delay.trans hset.delay, hinit.contextFree,
    hinit.feePayer.trans hset.feePayer, hinit.feeCosted.trans hset.feeCosted,
    hinit.maxFeeToPay.trans hset.maxFeeToPay, hset.tables.trans hinit.tables,
    hset.ledger.trans hinit.ledger⟩

theorem sets_initTrx (m : TrxMetadata) : Sets (initTrx env node m) := by
  rw [initTrx]
  split
  · exact .chain (sets_initForImplicitTrx env node) fun _ =>
      sets_modifyCtx fun _ _ => ⟨rfl, rfl, rfl, rfl, rfl, rfl, rfl, rfl, rfl, .refl _⟩
  · exact sets_initForInputTrx env node _ _ _

theorem sets_checkAuthorization (actions : List Action) (keys : List PublicKey)
    (provided : List PermissionLevel) (delay : Int) (satisfied : List PermissionLevel) :
    Sets (checkAuthorization env actions keys provided delay satisfied) :=
  .get_bind fun _ _ => .chain (.forM stable_true fun _ _ => sets_checktime) fun _ => sets_raise

/-- A context, less the limits that fees buy. -/
def unbought (c : Context) : Context :=
  { c with useLimitByContract := false, cpuLimitByContract := 0, netLimitByContract := 0 }

theorem limitByContractStep_unbought {t : Tables σ} {act : Action} {acc acc' : Context × Asset}
    (h : limitByContractStep t acc act = .ok acc') : unbought acc'.1 = unbought acc.1 := by
  rw [limitByContractStep] at h
  cases hrow : t.actionFees act.account act.name with
  | none =>
    rw [hrow] at h
    rw [← Except.ok.inj h]
  | some info =>
    rw [hrow] at h
    dsimp only at h
    split at h
    · rw [← Except.ok.inj h]
      rfl
    · obtain ⟨calcResFee, _, h⟩ := except_bind_ok h
      rw [← Except.ok.inj h]
      rfl

theorem limitByContract_unbought {t : Tables σ} {acts : List Action} :
    ∀ {acc acc' : Context × Asset}, acts.foldlM (limitByContractStep t) acc = .ok acc' →
      unbought acc'.1 = unbought acc.1 := by
  induction acts with
  | nil =>
    intro acc acc' h
    rw [← Except.ok.inj h]
  | cons act rest ih =>
    intro acc acc' h
    rw [List.foldlM_cons] at h
    obtain ⟨mid, hmid, h⟩ := except_bind_ok h
    exact (ih h).trans (limitByContractStep_unbought hmid)

/-- `make_limit_by_contract` sets the limits that fees buy and nothing else. -/
theorem makeLimitByContract_unbought (feeExt : Asset) (s : ExecState σ) :
    (final (makeLimitByContract feeExt s)).db = s.db ∧
      unbought (final (makeLimitByContract feeExt s)).ctx = unbought s.ctx := by
  rw [makeLimitByContract, get_bind]
  refine still_bind (P := fun s' => s'.db = s.db ∧ unbought s'.ctx = unbought s.ctx)
    (final_raise s) ⟨rfl, rfl⟩ fun acc hacc => ?_
  have hsame := limitByContract_unbought (raise_ok hacc).1
  obtain ⟨c, calcResFee⟩ := acc
  refine still_bind (P := fun s' => s'.db = s.db ∧ unbought s'.ctx = unbought s.ctx)
    (final_raise s) ⟨rfl, rfl⟩ fun none' _ => ?_
  split
  · exact ⟨rfl, hsame⟩
  · exact ⟨rfl, hsame⟩

theorem aside_of_unbought (hdb : s'.db = s.db) (h : unbought s'.ctx = unbought s.ctx) :
    Aside s s' := by
  have hfield : ∀ {α : Type} (f : Context → α), f (unbought s'.ctx) = f (unbought s.ctx) :=
    fun f => congrArg f h
  refine ⟨hfield Context.executed, hfield Context.actionTraces, hfield Context.trx,
    hfield Context.delay, hfield Context.applyContextFree, hfield Context.feePayer,
    hfield Context.feeCosted, hfield Context.maxFeeToPay, ?_, ?_⟩
  · rw [hdb]
    rfl
  · rw [hdb]
    exact .refl _

theorem sets_makeLimitByContract (feeExt : Asset) :
    Sets (makeLimitByContract feeExt : ExecM σ Unit) := by
  intro s _
  obtain ⟨hdb, hctx⟩ := makeLimitByContract_unbought feeExt s
  exact .single (aside_of_unbought hdb hctx)

/-! ## Who pays -/

/-- `make_fee_act` went through: fees are charged to the first actor. -/
structure FeesDue (limit : Asset) (s s' : ExecState σ) : Prop where
  payer : s.ctx.trx.firstActor = some s'.ctx.feePayer
  need : s'.ctx.isNeedFeeAction
  maxFeeToPay : s'.ctx.maxFeeToPay = limit
  feeCosted : s'.ctx.feeCosted = Asset.zero
  executed : s'.ctx.executed = s.ctx.executed
  traces : s'.ctx.actionTraces = s.ctx.actionTraces
  trx : s'.ctx.trx = s.ctx.trx
  delay : s'.ctx.delay = s.ctx.delay
  contextFree : s'.ctx.applyContextFree = s.ctx.applyContextFree
  tables : SameTables s.db.tables s'.db.tables
  ledger : Kept s.db s'.db

omit env node in
theorem FeesDue.of_aside {limit : Asset} {a b c d : ExecState σ} (hab : Aside a b)
    (h : FeesDue limit b c) (hcd : Aside c d) : FeesDue limit a d where
  payer := by rw [← hab.trx, h.payer, hcd.feePayer]
  need := by
    rw [Context.isNeedFeeAction, hcd.feePayer]
    exact h.need
  maxFeeToPay := hcd.maxFeeToPay.trans h.maxFeeToPay
  feeCosted := hcd.feeCosted.trans h.feeCosted
  executed := hcd.executed.trans (h.executed.trans hab.executed)
  traces := hcd.traces.trans (h.traces.trans hab.traces)
  trx := hcd.trx.trans (h.trx.trans hab.trx)
  delay := hcd.delay.trans (h.delay.trans hab.delay)
  contextFree := hcd.contextFree.trans (h.contextFree.trans hab.contextFree)
  tables := (hab.tables.trans h.tables).trans hcd.tables
  ledger := (hab.ledger.trans h.ledger).trans hcd.ledger

omit env node in
theorem makeFeeAct_ok {limit : Asset} (h : makeFeeAct limit s = .ok u s') : FeesDue limit s s' := by
  rw [makeFeeAct, get_bind] at h
  cases hacts : s.ctx.trx.actions with
  | nil =>
    rw [hacts] at h
    exact nomatch h
  | cons act rest =>
    rw [hacts] at h
    dsimp only at h
    cases hauth : act.authorization with
    | nil =>
      rw [hauth] at h
      exact nomatch h
    | cons p more =>
      rw [hauth] at h
      dsimp only at h
      rw [modifyCtx, modify_bind] at h
      obtain ⟨hp, rfl⟩ := require_ok h
      refine ⟨?_, hp, rfl, rfl, rfl, rfl, rfl, rfl, rfl, rfl, .refl _⟩
      rw [Transaction.firstActor, hacts]
      show (act.authorization.head?).map (·.actor) = _
      rw [hauth]
      rfl

/-- Settling the fee of an input transaction: fees are due where
    `onfee_action` is open, and nothing is charged later where it is not. -/
theorem settleFee_ok (h : settleFee env s = .ok u s') :
    (onfeeOpen env s.db.tables ∧ ∃ limit,
        getFromExtensions env.unpackAsset s.ctx.trx feeLimitExtension = .ok limit ∧
        FeesDue (limit.getD Asset.zero) s s') ∨
      ¬ onfeeOpen env s.db.tables ∧ Aside s s' := by
  rw [settleFee, get_bind] at h
  by_cases hopen : onfeeOpen env s.db.tables
  · rw [if_pos hopen] at h
    obtain ⟨limit, hlimit, hdue⟩ := raise_bind_inv h
    exact .inl ⟨hopen, limit, hlimit, makeFeeAct_ok hdue⟩
  · rw [if_neg hopen] at h
    refine .inr ⟨hopen, Sets.aside_ok ?_ h⟩
    refine .chain sets_raise fun _ => .chain sets_raise fun _ => ?_
    exact .chain sets_require fun _ => .chain sets_raise sets_makeLimitByContract

omit node in
theorem onfeeOpen_congr {t t' : Tables σ} (h : SameTables t t') :
    onfeeOpen env t' ↔ onfeeOpen env t := by
  have hnums := congrArg Tables.configNums h
  rw [onfeeOpen, onfeeOpen, isFuncHasOpen, isFuncHasOpen, getNumConfigOnChain,
    getNumConfigOnChain, show t'.configNums = t.configNums from hnums]

/-- The state with the delay that `push_transaction` sets. -/
def delayed (m : TrxMetadata) (s : ExecState σ) : ExecState σ :=
  { s with ctx := { s.ctx with delay := m.trx.delaySec * 1000000 } }

/-- An input transaction that was set up brings no extensions. -/
theorem initForInputTrx_extensions {unprunableSize prunableSize : Nat} {skipRecording : Bool}
    (h : initForInputTrx env node unprunableSize prunableSize skipRecording s = .ok u s') :
    s.ctx.trx.transactionExtensions = [] := by
  rw [initForInputTrx, get_bind] at h
  by_cases hext : s.ctx.trx.transactionExtensions ≠ []
  · rw [whenever, if_pos hext] at h
    cases h
  · exact not_not.mp hext

/-- How a transaction is set up: with fees due in the end, or with none. -/
theorem prepareTrx_ok {m : TrxMetadata} (h : prepareTrx env node m s = .ok u s') :
    (m.implicit = false ∧ onfeeOpen env s.db.tables ∧
        (∃ limit, getFromExtensions env.unpackAsset s.ctx.trx feeLimitExtension = .ok limit ∧
          FeesDue (limit.getD Asset.zero) (delayed m s) s') ∧
        s.ctx.trx.transactionExtensions = []) ∨
      (m.implicit = true ∨ ¬ onfeeOpen env s.db.tables) ∧ Aside (delayed m s) s' := by
  rw [prepareTrx] at h
  obtain ⟨_, s1, hinit, h1⟩ := bind_ok_inv h
  have h0 := (sets_initTrx env node m).aside_ok hinit
  have hd : Aside (delayed m s) (delayed m s1) :=
    ⟨h0.executed, h0.traces, h0.trx, rfl, h0.contextFree, h0.feePayer, h0.feeCosted,
      h0.maxFeeToPay, h0.tables, h0.ledger⟩
  rw [modifyCtx, modify_bind] at h1
  obtain ⟨_, s2, hauth, hfee⟩ := bind_ok_inv h1
  have h2 : Aside (delayed m s) s2 := hd.trans (Sets.aside_ok
    (.whenever fun _ => sets_checkAuthorization env _ _ _ _ _) hauth)
  have hopen : onfeeOpen env s2.db.tables ↔ onfeeOpen env s.db.tables :=
    onfeeOpen_congr env h2.tables
  by_cases himp : m.implicit = false
  · rw [whenever, if_pos himp] at hfee
    obtain ⟨ho, limit, hlimit, hdue⟩ | ⟨ho, haside⟩ := settleFee_ok env hfee
    · refine .inl ⟨himp, hopen.mp ho, ⟨limit, ?_, FeesDue.of_aside h2 hdue (.refl _)⟩, ?_⟩
      · rw [show s.ctx.trx = s2.ctx.trx from h2.trx.symm]
        exact hlimit
      · rw [initTrx, himp] at hinit
        exact initForInputTrx_extensions env node hinit
    · exact .inr ⟨.inr fun hc => ho (hopen.mpr hc), h2.trans haside⟩
  · rw [whenever, if_neg himp] at hfee
    cases hfee
    exact .inr ⟨.inl (Bool.not_eq_false _ ▸ himp), h2⟩

theorem prepareTrx_tables {m : TrxMetadata} (h : prepareTrx env node m s = .ok u s') :
    SameTables s.db.tables s'.db.tables := by
  obtain ⟨_, _, ⟨_, _, hdue⟩, _⟩ | ⟨_, haside⟩ := prepareTrx_ok env node h
  · exact hdue.tables
  · exact haside.tables

/-! ## Settling -/

theorem sets_finalize : Sets (finalize env node) := by
  refine .get_bind fun s _ => ?_
  refine .chain sets_require fun _ => ?_
  refine .chain (.whenever fun _ => .forM stable_true fun auth _ => ?_) fun _ => ?_
  · refine .get_bind fun s' _ => .chain sets_raise fun rest => ?_
    exact .modify fun _ _ => ⟨rfl, rfl, rfl, rfl, rfl, rfl, rfl, rfl, rfl, fun _ => rfl, rfl⟩
  refine .chain (.forM stable_true fun a _ => .get_bind fun s' _ =>
    sets_onResources (ramKept_verifyAccountRamUsage a _)) fun _ => ?_
  refine .get_bind fun s' _ => .chain sets_raise fun b => ?_
  refine .chain (sets_modifyCtx (aside_finalLimits b)) fun _ => ?_
  refine .chain (sets_checkNetUsage node) fun _ => ?_
  refine .chain sets_updateBilledCpuTime fun _ => .get_bind fun s'' _ => ?_
  refine .chain (sets_validateCpuUsageToBill node _ true) fun _ => ?_
  exact .chain sets_raise fun _ => sets_onResources (ramKept_addTransactionUsage _ _ _ _)

/-! ## The body of a push -/

variable {env node} {m : TrxMetadata} {s e : ExecState σ}

/-- A body that returns without an exception went through all its parts. -/
theorem runTrx_none (h : runTrx env node m s = .ok none e) :
    ∃ s1 s2, prepareTrx env node m s = .ok () s1 ∧ exec env node s1 = .ok () s2 ∧
      finalize env node s2 = .ok () e := by
  rw [runTrx] at h
  obtain ⟨_, s1, hprep, h1⟩ := bind_ok_inv h
  rw [get_bind] at h1
  obtain ⟨r, s2, hatt, h2⟩ := bind_ok_inv h1
  cases r with
  | error err => cases h2
  | ok u =>
    cases h2
    rw [attempt] at hatt
    cases hx : execTrx env node s1 with
    | error err s3 =>
      rw [hx] at hatt
      dsimp only at hatt
      split at hatt
      · cases hatt
      · cases hatt
    | ok u' s3 =>
      rw [hx] at hatt
      cases hatt
      rw [execTrx, get_bind] at hx
      obtain ⟨-, h3⟩ := require_bind_inv hx
      obtain ⟨_, s5, hexec, hfin⟩ := bind_ok_inv h3
      exact ⟨s1, s5, hprep, hexec, hfin⟩

/-- Where `onfee_action` is open no exception is kept as a value. -/
theorem runTrx_open {except : Option FcException} (hopen : onfeeOpen env s.db.tables)
    (h : runTrx env node m s = .ok except e) : except = none := by
  rw [runTrx] at h
  obtain ⟨_, s1, hprep, h1⟩ := bind_ok_inv h
  rw [get_bind] at h1
  have hopen1 : onfeeOpen env s1.db.tables :=
    (onfeeOpen_congr env (prepareTrx_tables env node hprep)).mpr hopen
  obtain ⟨r, s2, hatt, h2⟩ := bind_ok_inv h1
  cases r with
  | ok u =>
    cases h2
    rfl
  | error err =>
    rw [attempt] at hatt
    cases hx : execTrx env node s1 with
    | ok u s3 =>
      rw [hx] at hatt
      cases hatt
    | error err' s3 =>
      rw [hx] at hatt
      simp only [if_pos hopen1] at hatt
      cases hatt

end TrxPhase
