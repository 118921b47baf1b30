import EosForce.JobLedgerProofs
import EosForce.AtomicPushProofs

/-! # How a scheduled transaction is retired

    `push_scheduled_transaction` takes the object out of the database first,
    so that nothing its transaction does can touch it, and runs the transaction
    and its error handler on what is left.  There are many ways out, through
    three undo sessions.  They come to two: the object is gone, refunded once
    and answered by one receipt, or the call changed nothing. -/

namespace ScheduledPush

open ChainTypes TrxTypes Effect Resource Database FeeRule TrxContext Push StepRule
open QuietStep ExecSteps TrxPhase TrxJob JobLedger AtomicPush

variable {σ : Type}

/-! ## The object that is removed -/

/-- The object is gone and its payer has its size back; nothing else changed. -/
structure Removed (env : Env σ) (g : GeneratedTransaction) (db db₁ : Db σ) : Prop where
  gone : ∀ x ∈ db₁.generated, ¬ (x.sender = g.sender ∧ x.senderId = g.senderId)
  kept : ∀ x ∈ db.generated, ¬ (x.sender = g.sender ∧ x.senderId = g.senderId) →
    x ∈ db₁.generated
  refunded : ∃ u, db.resources.usage g.payer = some u ∧ billableSize env g ≤ u.ramUsage ∧
    db₁.resources = setUsage db.resources g.payer
      { u with ramUsage := u.ramUsage - billableSize env g }
  others : db₁ = { db with resources := db₁.resources, generated := db₁.generated }

variable {env : Env σ} {node : Node} {g : GeneratedTransaction} {b : Billing}
  {errorClock : Clock}

variable {s : PipeState σ}

theorem onPipeResources_ok {α : Type} {x : ResourceM α} {a : α} {r : Resources}
    (h : x s.db.resources = .ok a r) :
    onPipeResources x s = .ok a { s with db := { s.db with resources := r } } :=
  zoom_ok h

theorem onPipeResources_error {α : Type} {x : ResourceM α} {e : FcException} {r : Resources}
    (h : x s.db.resources = .error e r) :
    onPipeResources x s = .error e { s with db := { s.db with resources := r } } :=
  zoom_error h

theorem removeScheduledTransaction_cases (env : Env σ) (g : GeneratedTransaction)
    (s : PipeState σ) :
    (∃ e, removeScheduledTransaction env g s = .error e s) ∨
      ∃ db1, Removed env g s.db db1 ∧
        removeScheduledTransaction env g s = .ok () { s with db := db1 } := by
  rw [removeScheduledTransaction]
  have hneg : -((billableSize env g : Nat) : Int) ≠ 0 := by
    unfold billableSize billableSizeOfGenerated
    omega
  obtain ⟨e, hr⟩ | ⟨hzero, -⟩ | ⟨u, hu, hle, hr⟩ :=
    addPendingRamUsage_cases g.payer (-((billableSize env g : Nat) : Int)) s.db.resources
  · exact .inl ⟨e, bind_error (onPipeResources_error hr)⟩
  · exact absurd hzero hneg
  · refine .inr ⟨_, ?_, (bind_ok (onPipeResources_ok hr)).trans rfl⟩
    refine ⟨?_, ?_, ⟨u, hu, by omega, ?_⟩, rfl⟩
    · intro x hx
      exact of_decide_eq_true (List.mem_filter.mp hx).2
    · intro x hx hne
      exact List.mem_filter.mpr ⟨hx, decide_eq_true hne⟩
    · have hsub : (u.ramUsage + -((billableSize env g : Nat) : Int)).toNat =
          u.ramUsage - billableSize env g := by
        omega
      rw [← hsub]
      rfl

/-! ## The ways out -/

/-- The node inside `push_scheduled_transaction`, where everything is checked. -/
def checking (node : Node) : Node := { node with inTrxRequiringChecks := true }

/-- The billing that `apply_onerror` gets. -/
def onerrorBilling (b : Billing) (errorClock : Clock) : Billing := { b with clock := errorClock }

/-- The deferred transaction itself failed. -/
def Fails (env : Env σ) (node : Node) (g : GeneratedTransaction) (b : Billing) (db₁ : Db σ) :
    Prop :=
  ∃ err e, runScheduled env (checking node) g ⟨db₁, scheduledContext (checking node) g b⟩ =
    .error err e

/-- How a transaction is retired once its object is gone: status, CPU and net
    usage of the receipt, what was executed, and the database at the end. -/
inductive Retired (env : Env σ) (node : Node) (g : GeneratedTransaction) (b : Billing)
    (errorClock : Clock) (db₁ : Db σ) : TrxStatus → Nat → Nat → List Executed → Db σ → Prop where
  | expired (h : g.expiration < env.pendingBlockTime) :
      Retired env node g b errorClock db₁ .expired b.billedCpuTimeUs 0 [] db₁
  | executed (e : ExecState σ)
      (h : runScheduled env (checking node) g ⟨db₁, scheduledContext (checking node) g b⟩ =
        .ok () e) :
      Retired env node g b errorClock db₁ .executed e.ctx.billedCpuTimeUs e.ctx.netUsage
        e.ctx.executed e.db
  | softFail (e : ExecState σ) (hfail : Fails env node g b db₁)
      (h : runOnerror env (checking node) g ⟨db₁, onerrorContext env g
        (onerrorBilling b errorClock)
        (scheduledContext (checking node) g b).enforceWhiteblacklist⟩ = .ok () e) :
      Retired env node g b errorClock db₁ .softFail e.ctx.billedCpuTimeUs e.ctx.netUsage
        e.ctx.executed e.db
  | hardFail (cpu : Nat) (r : Resources) (hfail : Fails env node g b db₁)
      (h : RamKept db₁.resources r) :
      Retired env node g b errorClock db₁ .hardFail cpu 0 [] { db₁ with resources := r }

/-- The pending block with the receipt and the actions of a transaction. -/
def withReceipt (block : BuildingBlock) (r : TransactionReceipt)
    (executed : List Executed) : BuildingBlock :=
  { block with pendingTrxReceipts := block.pendingTrxReceipts ++ [r]
               actions := block.actions ++ executed }

theorem withReceipt_nil (block : BuildingBlock) (r : TransactionReceipt) :
    withReceipt block r [] =
      { block with pendingTrxReceipts := block.pendingTrxReceipts ++ [r] } := by
  rw [withReceipt, List.append_nil]

/-- How `push_scheduled_transaction` can end inside its outer session. -/
inductive Ended (env : Env σ) (node : Node) (g : GeneratedTransaction) (b : Billing)
    (errorClock : Clock) (s : PipeState σ) :
    EStateM.Result FcException (PipeState σ) (Trace × Bool) → Prop where
  | retired {db₁ db' : Db σ} {status : TrxStatus} {cpu net : Nat} {executed : List Executed}
      {trace : Trace} (hremoved : Removed env g s.db db₁)
      (hretired : Retired env node g b errorClock db₁ status cpu net executed db')
      (htrace : trace.receipt = some (receipt (.id g.trxId) status cpu net).header) :
      Ended env node g b errorClock s (.ok (trace, true)
        ⟨db', withReceipt s.block (receipt (.id g.trxId) status cpu net) executed⟩)
  | left {trace : Trace} {db' : Db σ} (htrace : trace.receipt = none) :
      Ended env node g b errorClock s (.ok (trace, false) ⟨db', s.block⟩)
  | thrown {e : FcException} {db' : Db σ} :
      Ended env node g b errorClock s (.error e ⟨db', s.block⟩)

/-- A failure that the sender does not handle is left for later, billed, or
    cannot be billed. -/
theorem ended_retireFailed {db1 : Db σ} (c : Context) (err : FcException) (cpuTimeToBillUs : Nat)
    (hremoved : Removed env g s.db db1) (hfail : Fails env node g b db1) :
    Ended env node g b errorClock s
      (retireFailed env (checking node) g b c err cpuTimeToBillUs { s with db := db1 }) := by
  unfold retireFailed
  cases hsub : subjective b err with
  | true => exact .left rfl
  | false =>
    rw [if_neg Bool.false_ne_true]
    cases hcpu : hardFailCpuTime (checking node) c b env.pendingSlot cpuTimeToBillUs
        db1.resources with
    | error e r =>
      rw [bind_error (onPipeResources_error (s := ⟨db1, s.block⟩) hcpu)]
      exact .thrown
    | ok cpu r =>
      rw [bind_ok (onPipeResources_ok (s := ⟨db1, s.block⟩) hcpu)]
      cases hadd : addTransactionUsage c.billToAccounts cpu 0 env.pendingSlot r with
      | error e r' =>
        rw [bind_error (onPipeResources_error (s := ⟨_, s.block⟩) hadd)]
        exact .thrown
      | ok u r' =>
        rw [bind_ok (onPipeResources_ok (s := ⟨_, s.block⟩) hadd)]
        have hkept := (ramKept_ok (ramKept_hardFailCpuTime _ c b _ _) hcpu).trans
          (ramKept_ok (ramKept_addTransactionUsage _ cpu 0 _) hadd)
        have hend : Ended env node g b errorClock s (.ok
            (⟨some (receipt (.id g.trxId) .hardFail cpu 0).header, some err⟩, true)
            ⟨_, withReceipt s.block (receipt (.id g.trxId) .hardFail cpu 0) []⟩) :=
          .retired hremoved (.hardFail cpu r' hfail hkept) rfl
        rw [withReceipt_nil] at hend
        exact hend

/-- What the sender's error handler does with a failure. -/
theorem ended_applyOnerror {db1 : Db σ} (c : Context) (hremoved : Removed env g s.db db1)
    (hfail : Fails env node g b db1) :
    Ended env node g b errorClock s ((do
      let (trace, cpu) ← applyOnerror env (checking node) g (onerrorBilling b errorClock)
        (scheduledContext (checking node) g b).enforceWhiteblacklist
      match trace.except with
      | none => pure (trace, true)
      | some err => retireFailed env (checking node) g b c err cpu :
        PipeM σ (Trace × Bool)) { s with db := db1 }) := by
  have heq := applyOnerror_eq env (checking node) g (onerrorBilling b errorClock)
    (scheduledContext (checking node) g b).enforceWhiteblacklist { s with db := db1 }
  cases hrun : runOnerror env (checking node) g ⟨db1, onerrorContext env g
      (onerrorBilling b errorClock)
      (scheduledContext (checking node) g b).enforceWhiteblacklist⟩ with
  | ok u e =>
    rw [hrun] at heq
    rw [bind_ok heq]
    exact .retired hremoved (.softFail e hfail hrun) rfl
  | error err e =>
    rw [hrun] at heq
    dsimp only at heq
    by_cases hbad : isBadBlock err ∨ err.isStd
    · rw [if_pos hbad] at heq
      rw [bind_error heq]
      exact .thrown
    · rw [if_neg hbad] at heq
      rw [bind_ok heq]
      exact ended_retireFailed c err _ hremoved hfail

/-- **ALL WAYS OUT** of `push_scheduled_transaction`. -/
theorem ended_retire (env : Env σ) (node : Node) (g : GeneratedTransaction) (b : Billing)
    (errorClock : Clock) (s : PipeState σ) :
    Ended env node g b errorClock s (retire env node g b errorClock s) := by
  unfold retire
  obtain ⟨e, hr⟩ | ⟨db1, hremoved, hr⟩ := removeScheduledTransaction_cases env g s
  · rw [bind_error hr]
    exact .thrown
  · rw [bind_ok hr]
    by_cases hready : g.delayUntil ≤ env.pendingBlockTime
    · rw [bind_ok (require_pos hready _)]
      by_cases hexp : g.expiration < env.pendingBlockTime
      · rw [if_pos hexp]
        have hend : Ended env node g b errorClock s (.ok
            (⟨some (receipt (.id g.trxId) .expired b.billedCpuTimeUs 0).header, none⟩, true)
            ⟨db1, withReceipt s.block (receipt (.id g.trxId) .expired b.billedCpuTimeUs 0) []⟩) :=
          .retired hremoved (.expired hexp) rfl
        rw [withReceipt_nil] at hend
        exact hend
      · rw [if_neg hexp, get_bind]
        dsimp only
        rw [← checking]
        cases hrun : runScheduled env (checking node) g
            ⟨db1, scheduledContext (checking node) g b⟩ with
        | ok u e => exact .retired hremoved (.executed e hrun) rfl
        | error err e =>
          have hfail : Fails env node g b db1 := ⟨err, e, hrun⟩
          dsimp only
          split
          · exact .thrown
          · split
            · exact ended_applyOnerror e.ctx hremoved hfail
            · exact ended_retireFailed e.ctx err _ hremoved hfail
    · rw [bind_error (require_neg hready _)]
      exact .thrown

/-! ## The law -/

/-- The object is gone at the end, and its payer has been refunded once.  The
    book lists what the transaction, or its error handler, did on top of that:
    a deferred transaction under the same sender id that is there at the end, or
    is refunded, has been entered by it. -/
structure Settled (env : Env σ) (g : GeneratedTransaction) (db : Db σ) (book : List Entry)
    (db' : Db σ) : Prop where
  gone : ∀ x ∈ db'.generated, x.sender = g.sender ∧ x.senderId = g.senderId → .entered x ∈ book
  refunded : ∀ x, .refunded x ∈ book → x.sender = g.sender ∧ x.senderId = g.senderId →
    .entered x ∈ book
  ram : ∀ a, (ramOf db'.resources a : Int) = ramOf db.resources a -
    (if g.payer = a then (billableSize env g : Int) else 0) + ramOfBook env book a
  asked : ∀ account d, .asked account d ∈ book → Asked env account d

theorem Removed.settled {db db1 db' : Db σ} {book : List Entry} (h : Removed env g db db1)
    (hbook : Accounts env db1 book db') : Settled env g db book db' where
  gone x hx hkey := (hbook.generated x hx).resolve_left fun hmem => h.gone x hmem hkey
  refunded x hx hkey := (hbook.refunded x hx).resolve_left fun hmem => h.gone x hmem hkey
  ram a := by
    obtain ⟨u, hu, hle, hr⟩ := h.refunded
    rw [hbook.ram, hr, ramOf_setUsage hu]
    split
    · omega
    · omega
  asked := hbook.asked

/-- What is retired leaves a book, an empty one where no code has run to its
    end. -/
theorem Retired.accounts {db1 db' : Db σ} {status : TrxStatus} {cpu net : Nat}
    {executed : List Executed}
    (h : Retired env node g b errorClock db1 status cpu net executed db') :
    ∃ book, Accounts env db1 book db' ∧ (status = .expired ∨ status = .hardFail → book = []) := by
  cases h with
  | expired _ => exact ⟨[], accounts_kept (.refl _), fun _ => rfl⟩
  | executed e hrun =>
    obtain ⟨book, hbook⟩ := accounts_run env (checking node) db1 (.scheduled g b)
    rw [Job.run, final_seq_pure, hrun] at hbook
    exact ⟨book, hbook, fun h => by simp at h⟩
  | softFail e _ hrun =>
    obtain ⟨book, hbook⟩ := accounts_run env (checking node) db1 (.onerror g
      (onerrorBilling b errorClock) (scheduledContext (checking node) g b).enforceWhiteblacklist)
    rw [Job.run, final_seq_pure, hrun] at hbook
    exact ⟨book, hbook, fun h => by simp at h⟩
  | hardFail cpu r _ hram => exact ⟨[], accounts_kept ⟨hram, rfl⟩, fun _ => rfl⟩

/-- The transaction got one receipt, and its object is gone with one refund. -/
def Answered (env : Env σ) (node : Node) (g : GeneratedTransaction) (b : Billing)
    (errorClock : Clock) (s : PipeState σ) : Prop :=
  ∃ trace db₁ db' status cpu net executed book,
    pushScheduledObject env node g b errorClock s =
      .ok trace ⟨db', withReceipt s.block (receipt (.id g.trxId) status cpu net) executed⟩ ∧
    trace.receipt = some (receipt (.id g.trxId) status cpu net).header ∧
    status ∈ [TrxStatus.executed, .softFail, .hardFail, .expired] ∧
    Removed env g s.db db₁ ∧ Retired env node g b errorClock db₁ status cpu net executed db' ∧
    Settled env g s.db book db' ∧ (status = .expired ∨ status = .hardFail → book = [])

/-- The call threw or returned without a receipt, and database and pending
    block are as before. -/
def Untouched (env : Env σ) (node : Node) (g : GeneratedTransaction) (b : Billing)
    (errorClock : Clock) (s : PipeState σ) : Prop :=
  g ∈ s.db.generated ∧
    ((∃ e, pushScheduledObject env node g b errorClock s = .error e s) ∨
      ∃ trace, pushScheduledObject env node g b errorClock s = .ok trace s ∧
        trace.receipt = none)

theorem Retired.status_mem {db1 db' : Db σ} {status : TrxStatus} {cpu net : Nat}
    {executed : List Executed}
    (h : Retired env node g b errorClock db1 status cpu net executed db') :
    status ∈ [TrxStatus.executed, .softFail, .hardFail, .expired] := by
  cases h with
  | expired _ => decide
  | executed _ _ => decide
  | softFail _ _ _ => decide
  | hardFail _ _ _ _ => decide

theorem answered_or_untouched (hsessions : node.skipDbSessions = false) (hg : g ∈ s.db.generated) :
    Answered env node g b errorClock s ∨ Untouched env node g b errorClock s := by
  have hended := ended_retire env node g b errorClock s
  have hundo : ∀ db', undone node s.db db' = s.db := undone_of_sessions hsessions s.db
  cases hr : retire env node g b errorClock s with
  | error e s' =>
    rw [hr] at hended
    cases hended with
    | thrown =>
      refine .inr ⟨hg, .inl ⟨e.asFc, ?_⟩⟩
      rw [pushScheduledObject, hr]
      dsimp only
      rw [hundo]
  | ok r s' =>
    rw [hr] at hended
    cases hended with
    | retired hremoved hretired htrace =>
      obtain ⟨book, hbook, hempty⟩ := hretired.accounts
      refine .inl ⟨_, _, _, _, _, _, _, book, ?_, htrace, hretired.status_mem, hremoved, hretired,
        hremoved.settled hbook, hempty⟩
      rw [pushScheduledObject, hr]
      rfl
    | left htrace =>
      refine .inr ⟨hg, .inr ⟨_, ?_, htrace⟩⟩
      rw [pushScheduledObject, hr]
      dsimp only
      rw [hundo, if_neg Bool.false_ne_true]

theorem Answered.not_untouched (h : Answered env node g b errorClock s) :
    ¬ Untouched env node g b errorClock s := by
  obtain ⟨trace, db1, db', status, cpu, net, executed, book, hr, -⟩ := h
  rintro ⟨-, ⟨e, hr'⟩ | ⟨trace', hr', -⟩⟩
  · rw [hr] at hr'
    cases hr'
  · rw [hr] at hr'
    have hblock := congrArg (fun r => (final r).block.pendingTrxReceipts.length) hr'
    have hlen : (s.block.pendingTrxReceipts ++ [_]).length =
        s.block.pendingTrxReceipts.length := hblock
    rw [List.length_append, List.length_singleton] at hlen
    omega

/-- The law for `push_scheduled_transaction` by id: an id that no object has
    is refused. -/
theorem pushScheduledTransaction_outcome (hsessions : node.skipDbSessions = false)
    (trxId : Digest) :
    (∃ g ∈ s.db.generated, g.trxId = trxId ∧
      pushScheduledTransaction env node trxId b errorClock s =
        pushScheduledObject env node g b errorClock s ∧
      (Answered env node g b errorClock s ∨ Untouched env node g b errorClock s)) ∨
    (∀ g ∈ s.db.generated, g.trxId ≠ trxId) ∧
      ∃ e, pushScheduledTransaction env node trxId b errorClock s = .error e s := by
  rw [pushScheduledTransaction, get_bind]
  cases hfind : s.db.generated.find? fun g => g.trxId = trxId with
  | none =>
    refine .inr ⟨fun g hg => ?_, _, rfl⟩
    have hnot := List.find?_eq_none.mp hfind g hg
    exact fun heq => hnot (decide_eq_true heq)
  | some g =>
    have hg := List.mem_of_find?_eq_some hfind
    have hid := List.find?_some hfind
    exact .inl ⟨g, hg, of_decide_eq_true hid, rfl, answered_or_untouched hsessions hg⟩

/-- A transaction that `alice` scheduled, and that is due. -/
def deferred : GeneratedTransaction where
  trxId := 5
  sender := SmallChain.alice
  senderId := 1
  payer := SmallChain.alice
  delayUntil := 0
  expiration := 200000000
  published := 0
  trx :=
    { actions := [⟨SmallChain.alice, ⟨1⟩, [⟨SmallChain.alice, N.active⟩], []⟩]
      fee := ⟨100, coreSymbol⟩ }

/-- The code of `alice` schedules its transaction again, under the same id. -/
def rescheduling : Digest → Program Unit :=
  fun _ _ _ => [.scheduleDeferred 1 SmallChain.alice deferred.trx false]

/-- The small chain with that transaction and code, where `alice` uses so much
    RAM. -/
def deferredState (ram : Nat) : PipeState Unit where
  db :=
    { SmallChain.db none 1 false with
      generated := [deferred]
      tables :=
        { SmallChain.tables none 1 false with
          actionFees := fun _ _ => some ⟨⟨100, coreSymbol⟩, 100000, 100000, 100000⟩ }
      resources := setUsage SmallChain.resources SmallChain.alice { ramUsage := ram } }
  block := {}

def deferredRun (ram : Nat) : EStateM.Result FcException (PipeState Unit) Trace :=
  pushScheduledObject (SmallChain.env 7 rescheduling) SmallChain.producer deferred {} {}
    (deferredState ram)

end ScheduledPush
