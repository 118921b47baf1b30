import EosForce.TrxPhaseProofs

/-! # The transactions that a controller executes

    Input transactions, scheduled transactions and the `onerror` transaction
    that goes to the sender of a failed one.  Each is set up, executed and
    settled, and fails wherever it may.  What is said here about the actions
    of a job holds however it ends. -/

namespace TrxJob

open ChainTypes TrxTypes Effect Database TrxContext ApplyContext Push StepRule
open QuietStep ExecSteps TrxPhase Relation

variable {σ : Type}

/-! ## Jobs -/

/-- A transaction to execute, with what its caller passes along. -/
inductive Job where
  | input (m : TrxMetadata) (b : Billing)
  | scheduled (g : GeneratedTransaction) (b : Billing)
  | onerror (g : GeneratedTransaction) (b : Billing) (enforceWhiteblacklist : Bool)

/-- The kinds of transactions that are executed for users. -/
inductive Kind where
  | input
  | scheduled
  | onerror
deriving DecidableEq, Repr

def Job.kind : Job → Kind
  | .input _ _ => .input
  | .scheduled _ _ => .scheduled
  | .onerror _ _ _ => .onerror

/-- The transaction was not made by the controller for itself. -/
def Job.ofUser : Job → Prop
  | .input m _ => m.implicit = false
  | .scheduled _ _ => True
  | .onerror _ _ _ => True

/-- The transaction that is executed. -/
def Job.trx (env : Env σ) : Job → Transaction
  | .input m _ => m.trx
  | .scheduled g _ => g.trx
  | .onerror g _ _ => onerrorTransaction env g

/-- The context that `apply_onerror` starts. -/
def onerrorContext (env : Env σ) (g : GeneratedTransaction) (b : Billing)
    (enforceWhiteblacklist : Bool) : Context :=
  { trx := onerrorTransaction env g
    id := env.trxId (onerrorTransaction env g)
    clock := b.clock
    deadline := b.deadline
    explicitBilledCpuTime := b.explicitBilledCpuTime
    billedCpuTimeUs := b.billedCpuTimeUs
    enforceWhiteblacklist := enforceWhiteblacklist }

/-- The body of the push on its session. -/
def Job.run (env : Env σ) (node : Node) (db : Db σ) :
    Job → EStateM.Result FcException (ExecState σ) (Option FcException)
  | .input m b => runTrx env node m ⟨db, startContext node m b⟩
  | .scheduled g b =>
    (do runScheduled env node g; pure none) ⟨db, scheduledContext node g b⟩
  | .onerror g b enforce =>
    (do runOnerror env node g; pure none) ⟨db, onerrorContext env g b enforce⟩

theorem applyOnerror_eq (env : Env σ) (node : Node) (g : GeneratedTransaction) (b : Billing)
    (enforce : Bool) (s : PipeState σ) :
    applyOnerror env node g b enforce s =
      (match runOnerror env node g ⟨s.db, onerrorContext env g b enforce⟩ with
      | .ok _ e => do
          let r := receipt (.id g.trxId) .softFail e.ctx.billedCpuTimeUs e.ctx.netUsage
          pushReceipt r
          pushActions e.ctx.executed
          setDb e.db
          pure ({ receipt := some r.header }, 0)
      | .error err e =>
        if isBadBlock err ∨ err.isStd then throw err
        else pure ({ except := some err }, billedAtThrow e) : PipeM σ (Trace × Nat)) s := rfl

/-- Fees are due for the actions of the job. -/
def Job.charged (env : Env σ) (db : Db σ) : Job → Prop
  | .input m _ => m.implicit = false ∧ onfeeOpen env db.tables
  | .scheduled _ _ => onfeeOpen env db.tables
  | .onerror _ _ _ => False

/-- The delay of the job's actions. -/
def Job.delay : Job → Nat
  | .input m _ => m.trx.delaySec * 1000000
  | .scheduled _ _ => 0
  | .onerror _ _ _ => 0

/-! ## How a job goes -/

/-- `check_action` as part of the body. -/
def Job.passed (db : Db σ) : Job → Prop
  | .input _ _ => True
  | .scheduled g _ => checkAction db.tables g.trx.actions = .ok ()
  | .onerror _ _ _ => True

/-- Set up and about to be executed. -/
structure Ready (env : Env σ) (db : Db σ) (job : Job) (s : ExecState σ) : Prop where
  executed : s.ctx.executed = []
  trx : s.ctx.trx = job.trx env
  tables : SameTables db.tables s.db.tables
  ledger : Kept db s.db
  fees : s.ctx.isNeedFeeAction ↔ job.charged env db
  delay : s.ctx.delay = job.delay
  contextFree : s.ctx.applyContextFree = decide (job.kind ≠ .scheduled)
  passed : job.passed db
  traces : ∀ t ∈ s.ctx.actionTraces, job.kind = .onerror ∧ t.origin = .implicit ∧
    t.act ∈ (job.trx env).actions

/-- Where a job can end: it was refused before anything was executed, or it
    went by steps from a state that was set up. -/
inductive Outcome (env : Env σ) (db : Db σ) (job : Job) (f : ExecState σ) : Prop where
  | refused (h : f.ctx.executed = []) (hledger : Kept db f.db)
  | ran (s₁ s₂ : ExecState σ) (hready : Ready env db job s₁)
      (hsteps : ReflTransGen (Step env) s₁ s₂) (hsettled : Aside s₂ f)

/-- Nothing is executed, and RAM and deferred transactions are left alone. -/
def Idle (s s' : ExecState σ) : Prop :=
  s'.ctx.executed = s.ctx.executed ∧ Kept s.db s'.db

theorem idle_of_sets {α : Type} {x : ExecM σ α} (h : Sets x) : Moves Idle (fun _ => True) x :=
  h.mono (fun _ _ haside => ⟨haside.executed, haside.ledger⟩) fun _ _ => trivial

theorem idle_ends {α : Type} {x : ExecM σ α} (h : Moves Idle (fun _ => True) x) (s : ExecState σ) :
    Idle s (final (x s)) :=
  run_rel (R := Idle) (fun s => ⟨rfl, .refl s.db⟩) (fun a b c (hab : Idle a b) (hbc : Idle b c) =>
    ⟨hbc.1.trans hab.1, hab.2.trans hbc.2⟩) (h s trivial)

theorem idle_modifyCtx {f : Context → Context} (h : ∀ c, (f c).executed = c.executed) :
    Moves Idle (fun _ => True) (modifyCtx f : ExecM σ Unit) :=
  .modify fun s _ => ⟨h s.ctx, .refl s.db⟩

theorem idle_makeFeeAct (limit : Asset) :
    Moves Idle (fun _ => True) (makeFeeAct limit : ExecM σ Unit) := by
  refine .get_bind fun s _ => ?_
  dsimp only
  cases s.ctx.trx.actions with
  | nil => exact .throw _
  | cons act rest =>
    dsimp only
    cases act.authorization with
    | nil => exact .throw _
    | cons p more =>
      exact .chain (idle_modifyCtx fun _ => rfl) fun _ => .still final_require

variable {env : Env σ} {node : Node} {db : Db σ} {job : Job}

/-- Setting up, executing and settling, with anything that goes by steps for
    the execution. -/
theorem outcome_of_phases {α : Type} {setUp : ExecM σ α} {execute : α → ExecM σ Unit}
    {s : ExecState σ} (hidle : Moves Idle (fun _ => True) setUp) (hs : s.ctx.executed = [])
    (hdb : s.db = db)
    (hready : ∀ a s1, setUp s = .ok a s1 → Ready env db job s1 ∧
      ReflTransGen (Step env) s1 (final (execute a s1))) :
    Outcome env db job
      (final ((setUp >>= fun a => execute a >>= fun _ => finalize env node) s)) := by
  have hends := idle_ends hidle s
  cases hr : setUp s with
  | error e s1 =>
    rw [hr] at hends
    rw [bind_error hr]
    exact .refused (hends.1.trans hs) (hdb ▸ hends.2)
  | ok a s1 =>
    obtain ⟨hready1, hsteps⟩ := hready a s1 hr
    rw [bind_ok hr]
    cases hx : execute a s1 with
    | error e s2 =>
      rw [hx] at hsteps
      rw [bind_error hx]
      exact .ran s1 s2 hready1 hsteps (.refl _)
    | ok u s2 =>
      rw [hx] at hsteps
      rw [bind_ok hx]
      exact .ran s1 s2 hready1 hsteps ((sets_finalize env node).aside s2)

/-! ## Input transactions -/

theorem idle_settleFee : Moves Idle (fun _ => True) (settleFee env) := by
  refine .get_bind fun s _ => ?_
  dsimp only
  split
  · exact .chain (.still final_raise) fun _ => idle_makeFeeAct _
  · exact idle_of_sets (.chain sets_raise fun _ => .chain sets_raise fun _ =>
      .chain sets_require fun _ => .chain sets_raise sets_makeLimitByContract)

theorem idle_prepareTrx (m : TrxMetadata) : Moves Idle (fun _ => True) (prepareTrx env node m) := by
  refine .chain (idle_of_sets (sets_initTrx env node m)) fun _ => ?_
  refine .chain (idle_modifyCtx fun _ => rfl) fun _ => ?_
  refine .chain (idle_of_sets (.whenever fun _ =>
    sets_checkAuthorization env _ _ _ _ _)) fun _ => ?_
  exact .whenever fun _ => idle_settleFee

theorem ready_prepareTrx {m : TrxMetadata} {b : Billing} {u : Unit} {s1 : ExecState σ}
    (h : prepareTrx env node m ⟨db, startContext node m b⟩ = .ok u s1) :
    Ready env db (.input m b) s1 := by
  obtain ⟨himp, hopen, ⟨limit, _, hdue⟩, _⟩ | ⟨hfree, haside⟩ := prepareTrx_ok env node h
  · refine ⟨hdue.executed, hdue.trx, hdue.tables, hdue.ledger, iff_of_true hdue.need ⟨himp, hopen⟩,
      hdue.delay, hdue.contextFree, trivial, ?_⟩
    rw [hdue.traces]
    exact List.forall_mem_nil _
  · refine ⟨haside.executed, haside.trx, haside.tables, haside.ledger, iff_of_false ?_ ?_,
      haside.delay,
      haside.contextFree, trivial, ?_⟩
    · rw [Context.isNeedFeeAction, haside.feePayer]
      exact fun hne => hne rfl
    · rintro ⟨himp, hopen⟩
      obtain h | h := hfree
      · rw [himp] at h
        cases h
      · exact h hopen
    · rw [haside.traces]
      exact List.forall_mem_nil _

theorem final_attempt {ρ α : Type} (select : FcException → Option ρ) (x : ExecM σ α)
    (s : ExecState σ) : final (attempt select x s) = final (x s) := by
  rw [attempt]
  cases x s with
  | ok a s' => rfl
  | error e s' =>
    dsimp only
    cases select e with
    | none => rfl
    | some r => rfl

/-- `push_transaction` ends where its three phases end. -/
theorem final_runTrx (m : TrxMetadata) (s : ExecState σ) :
    final (runTrx env node m s) =
      final ((prepareTrx env node m >>= fun _ => execTrx env node) s) := by
  rw [runTrx]
  cases hr : prepareTrx env node m s with
  | error e s1 =>
    rw [bind_error hr, bind_error hr]
    rfl
  | ok u s1 =>
    rw [bind_ok hr, bind_ok hr, get_bind]
    have hsame := final_attempt
      (fun e => if onfeeOpen env s1.db.tables then none else e.caught) (execTrx env node) s1
    cases ha : attempt (fun e => if onfeeOpen env s1.db.tables then none else e.caught)
      (execTrx env node) s1 with
    | error e s2 =>
      rw [ha] at hsame
      rw [bind_error ha]
      exact hsame
    | ok r s2 =>
      rw [ha] at hsame
      rw [bind_ok ha]
      cases r with
      | error e => exact hsame
      | ok v => exact hsame

theorem outcome_input (m : TrxMetadata) (b : Billing) :
    Outcome env db (.input m b) (final (Job.run env node db (.input m b))) := by
  let setUp : ExecM σ Unit := do
    prepareTrx env node m
    let c := (← get).ctx
    require (c.explicitBilledCpuTime = false ∨ c.billedCpuTimeUs ≠ 0) .transaction "error trx"
  have hphases : (prepareTrx env node m >>= fun _ => execTrx env node) =
      setUp >>= fun _ => exec env node >>= fun _ => finalize env node := by
    simp only [setUp, bind_assoc, execTrx]
  rw [Job.run, final_runTrx, hphases]
  refine outcome_of_phases ?_ rfl rfl fun _ s1 hr => ?_
  · exact .chain (idle_prepareTrx m) fun _ => .get_bind fun _ _ => .still final_require
  · obtain ⟨_, s2, hprep, hreq⟩ := bind_ok_inv hr
    rw [get_bind] at hreq
    obtain ⟨_, rfl⟩ := require_ok hreq
    exact ⟨ready_prepareTrx hprep, moves_exec s1⟩

/-! ## Scheduled transactions -/

theorem final_seq_pure {α β : Type} (x : ExecM σ α) (b : β) (s : ExecState σ) :
    final ((x >>= fun _ => pure b) s) = final (x s) := by
  cases hr : x s with
  | ok a s' =>
    rw [bind_ok hr]
    rfl
  | error e s' =>
    rw [bind_error hr]
    rfl

/-- `push_scheduled_transaction` up to the execution. -/
def prepareScheduled (env : Env σ) (node : Node) (g : GeneratedTransaction) : ExecM σ Unit := do
  let t := (← get).db.tables
  raise (checkAction t g.trx.actions)
  initForDeferredTrx env node g.published
  scheduledFee env (onfeeOpen env t) g.trx
  let c := (← get).ctx
  whenever (c.enforceWhiteblacklist = true ∧ node.isProducingBlock = true)
    (raise (checkActorList node
      (g.trx.actions.flatMap fun a => a.authorization.map (·.actor))))

theorem runScheduled_phases (env : Env σ) (node : Node) (g : GeneratedTransaction) :
    runScheduled env node g =
      prepareScheduled env node g >>= fun _ => exec env node >>= fun _ => finalize env node := by
  simp only [prepareScheduled, bind_assoc, runScheduled]

theorem idle_initForDeferredTrx (published : Nat) :
    Moves Idle (fun _ => True) (initForDeferredTrx env node published) := by
  refine .get_bind fun s _ => ?_
  refine .chain (.whenever fun _ => .throw _) fun _ => ?_
  exact .chain (idle_modifyCtx fun _ => rfl) fun _ => idle_of_sets (sets_init env node 0)

theorem idle_prepareScheduled (g : GeneratedTransaction) :
    Moves Idle (fun _ => True) (prepareScheduled env node g) := by
  refine .get_bind fun s _ => ?_
  refine .chain (.still final_raise) fun _ => ?_
  refine .chain (idle_initForDeferredTrx _) fun _ => ?_
  refine .chain ?_ fun _ =>
    .get_bind fun _ _ => idle_of_sets (.whenever fun _ => sets_raise)
  rw [scheduledFee]
  split
  · exact .chain (.still final_raise) fun _ => idle_makeFeeAct _
  · exact idle_of_sets (sets_makeLimitByContract _)

variable {g : GeneratedTransaction}

/-- A scheduled transaction that is set up has passed `check_action`, and fees
    are due where `onfee_action` is open. -/
theorem prepareScheduled_ok {s s1 : ExecState σ} {u : Unit}
    (h : prepareScheduled env node g s = .ok u s1) :
    checkAction s.db.tables g.trx.actions = .ok () ∧
      ((onfeeOpen env s.db.tables ∧ ∃ limit,
          getFromExtensions env.unpackAsset g.trx feeLimitExtension = .ok limit ∧
          FeesDue (limit.getD Asset.zero) (withoutContextFree s) s1) ∨
        ¬ onfeeOpen env s.db.tables ∧ Aside (withoutContextFree s) s1) := by
  rw [prepareScheduled, get_bind] at h
  obtain ⟨_, hcheck, k1⟩ := raise_bind_inv h
  refine ⟨hcheck, ?_⟩
  obtain ⟨_, s3, hinit, k2⟩ := bind_ok_inv k1
  have hset : Aside (withoutContextFree s) s3 := aside_initForDeferredTrx env node hinit
  obtain ⟨_, s4, hfee, k3⟩ := bind_ok_inv k2
  rw [get_bind] at k3
  have hlists : Aside s4 s1 := Sets.aside_ok (.whenever fun _ => sets_raise) k3
  rw [scheduledFee] at hfee
  by_cases hopen : onfeeOpen env s.db.tables
  · rw [if_pos hopen] at hfee
    obtain ⟨limit, hlimit, hdue⟩ := raise_bind_inv hfee
    exact .inl ⟨hopen, limit, hlimit, .of_aside hset (makeFeeAct_ok hdue) hlists⟩
  · rw [if_neg hopen] at hfee
    exact .inr ⟨hopen, (hset.trans ((sets_makeLimitByContract _).aside_ok hfee)).trans hlists⟩

theorem ready_prepareScheduled {b : Billing} {u : Unit} {s1 : ExecState σ}
    (h : prepareScheduled env node g ⟨db, scheduledContext node g b⟩ = .ok u s1) :
    Ready env db (.scheduled g b) s1 := by
  obtain ⟨hpassed, ⟨hopen, limit, _, hdue⟩ | ⟨hclosed, haside⟩⟩ := prepareScheduled_ok h
  · refine ⟨hdue.executed, hdue.trx, hdue.tables, hdue.ledger, iff_of_true hdue.need hopen,
      hdue.delay,
      hdue.contextFree, hpassed, ?_⟩
    rw [hdue.traces]
    exact List.forall_mem_nil _
  · refine ⟨haside.executed, haside.trx, haside.tables, haside.ledger, iff_of_false ?_ hclosed,
      haside.delay,
      haside.contextFree, hpassed, ?_⟩
    · rw [Context.isNeedFeeAction, haside.feePayer]
      exact fun hne => hne rfl
    · rw [haside.traces]
      exact List.forall_mem_nil _

theorem outcome_scheduled (g : GeneratedTransaction) (b : Billing) :
    Outcome env db (.scheduled g b) (final (Job.run env node db (.scheduled g b))) := by
  rw [Job.run, final_seq_pure, runScheduled_phases]
  exact outcome_of_phases (idle_prepareScheduled g) rfl rfl fun _ s1 hr =>
    ⟨ready_prepareScheduled hr, moves_exec s1⟩

/-! ## `onerror` -/

/-- The only action of an `onerror` transaction. -/
def onerrorAction (env : Env σ) (g : GeneratedTransaction) : Action where
  account := N.eosio
  name := N.onerror
  authorization := [⟨g.sender, N.active⟩]
  data := env.packOnerror g.senderId g.trx

theorem onerrorTransaction_actions (env : Env σ) (g : GeneratedTransaction) :
    (onerrorTransaction env g).actions = [onerrorAction env g] := by
  rw [onerrorTransaction, generatedHeader]
  split
  · rfl
  · rfl

/-- `apply_onerror` up to the execution. -/
def prepareOnerror (env : Env σ) (node : Node) (g : GeneratedTransaction) : ExecM σ Nat := do
  initForImplicitTrx env node
  modifyCtx fun c => { c with published := g.published }
  scheduleAction (onerrorAction env g) g.sender false 0 .implicit

/-- The state in which `apply_onerror` is about to execute. -/
theorem prepareOnerror_ok {s s1 : ExecState σ} {ordinal : Nat}
    (h : prepareOnerror env node g s = .ok ordinal s1) :
    ordinal = s.ctx.actionTraces.length + 1 ∧ ∃ s0, Aside s s0 ∧
      s1 = schedule s0 (traceOf s0 (onerrorAction env g) g.sender false 0 .implicit) := by
  rw [prepareOnerror] at h
  obtain ⟨_, s2, hinit, k1⟩ := bind_ok_inv h
  have hset : Aside s s2 := (sets_initForImplicitTrx env node).aside_ok hinit
  rw [modifyCtx_bind, scheduleAction_eq] at k1
  cases k1
  refine ⟨?_, _, ?_, rfl⟩
  · rw [← hset.traces]
  · exact hset.trans ⟨rfl, rfl, rfl, rfl, rfl, rfl, rfl, rfl, rfl, .refl _⟩

theorem runOnerror_phases (g : GeneratedTransaction) (s : ExecState σ)
    (hs : s.ctx.trx = onerrorTransaction env g) :
    runOnerror env node g s =
      (prepareOnerror env node g >>= fun ordinal =>
        executeAction env node maxDepth ordinal >>= fun _ => finalize env node) s := by
  rw [runOnerror, prepareOnerror, bind_assoc]
  cases hr : initForImplicitTrx env node s with
  | error e s1 => rw [bind_error hr, bind_error hr]
  | ok u s1 =>
    have hset : Aside s s1 := (sets_initForImplicitTrx env node).aside_ok hr
    have hlast : s1.ctx.trx.actions.getLast? = some (onerrorAction env g) := by
      rw [hset.trx, hs, onerrorTransaction_actions]
      rfl
    rw [bind_ok hr, bind_ok hr, modifyCtx_bind, bind_assoc, modifyCtx_bind, get_bind]
    dsimp only
    rw [hlast]

theorem idle_prepareOnerror (g : GeneratedTransaction) :
    Moves Idle (fun _ => True) (prepareOnerror env node g) := by
  refine .chain (idle_of_sets (sets_initForImplicitTrx env node)) fun _ => ?_
  refine .chain (idle_modifyCtx fun _ => rfl) fun _ => ?_
  intro s _
  rw [scheduleAction_eq]
  exact .single ⟨rfl, .refl s.db⟩

theorem ready_prepareOnerror {b : Billing} {enforce : Bool} {ordinal : Nat} {s1 : ExecState σ}
    (h : prepareOnerror env node g ⟨db, onerrorContext env g b enforce⟩ = .ok ordinal s1) :
    Ready env db (.onerror g b enforce) s1 := by
  obtain ⟨_, s0, hset, rfl⟩ := prepareOnerror_ok h
  refine ⟨hset.executed, hset.trx, hset.tables, hset.ledger, iff_of_false ?_ id, hset.delay,
    hset.contextFree, trivial, ?_⟩
  · show ¬ s0.ctx.isNeedFeeAction
    rw [Context.isNeedFeeAction, hset.feePayer]
    exact fun hne => hne rfl
  · intro t ht
    obtain ht | ht := List.mem_append.mp ht
    · rw [hset.traces] at ht
      cases ht
    · rw [List.mem_singleton.mp ht, Job.trx, onerrorTransaction_actions]
      exact ⟨rfl, rfl, List.mem_singleton_self _⟩

theorem outcome_onerror (g : GeneratedTransaction) (b : Billing) (enforce : Bool) :
    Outcome env db (.onerror g b enforce) (final (Job.run env node db (.onerror g b enforce))) := by
  rw [Job.run, final_seq_pure, runOnerror_phases g _ rfl]
  exact outcome_of_phases (idle_prepareOnerror g) rfl rfl fun ordinal s1 hr =>
    ⟨ready_prepareOnerror hr, moves_executeAction maxDepth ordinal s1 trivial⟩

/-- **HOW A JOB ENDS**: refused before anything is executed, or by steps from
    a state that was set up. -/
theorem outcome_run (env : Env σ) (node : Node) (db : Db σ) (job : Job) :
    Outcome env db job (final (job.run env node db)) := by
  cases job with
  | input m b => exact outcome_input m b
  | scheduled g b => exact outcome_scheduled g b
  | onerror g b enforce => exact outcome_onerror g b enforce

/-- What every action has when it is scheduled, every action that a job
    executes has. -/
theorem executed_of_stable {P : ActionTrace → Prop} {J : ExecState σ → Prop}
    (hstable : Stable (Step env) fun s => J s ∧ AllTraces P s)
    (hready : ∀ s, Ready env db job s → J s ∧ ∀ t ∈ s.ctx.actionTraces, P t) :
    ∀ x ∈ (final (job.run env node db)).ctx.executed, P x.trace := by
  cases outcome_run env node db job with
  | refused h _ =>
    rw [h]
    exact List.forall_mem_nil _
  | ran s1 s2 hr hsteps hsettled =>
    obtain ⟨hJ, hP⟩ := hready s1 hr
    rw [hsettled.executed]
    refine (hstable.run hsteps ⟨hJ, hP, ?_⟩).2.executed
    rw [hr.executed]
    exact List.forall_mem_nil _

/-! ## Jobs that return -/

theorem seq_pure_ok {α β : Type} {x : ExecM σ α} {b b' : β} {s s' : ExecState σ}
    (h : (x >>= fun _ => pure b) s = .ok b' s') : ∃ a, x s = .ok a s' := by
  obtain ⟨a, s1, hx, hp⟩ := bind_ok_inv h
  cases hp
  exact ⟨a, hx⟩

end TrxJob
