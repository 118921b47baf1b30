import EosForce.FeeOriginProofs

/-! # The emergency stop

    In an emergency only the actions that end it, and those of the node
    itself, are to run.  `check_action` looks at the names of the actions of a
    transaction and at nothing else: not at their accounts, not at the
    context-free actions, and not at what contracts send or at `onerror`. -/

namespace Emergency

open ChainTypes TrxTypes Database TrxContext Push StepRule
open ExecSteps TrxJob FeePair

variable {σ : Type} {env : Env σ} {node : Node} {db : Db σ} {job : Job} {t : Tables σ}

/-! ## What is allowed -/

/-- The actions that may run in an emergency. -/
def Allowed (a : Action) : Prop := a.account = N.eosio ∧ a.name ∈ emergencyNames

/-- Code that runs for an allowed action sends only allowed ones. -/
def Tame (env : Env σ) : Prop :=
  ∀ act x, Allowed act →
    Sent env act (.executeInline x) ∨ Sent env act (.executeContextFreeInline x) → Allowed x

/-- `check_action` has passed on the tables `t`: before an input transaction
    pays its fee, and inside the body of a scheduled one. -/
def Checked (t : Tables σ) (db : Db σ) : Job → Prop
  | .input m _ => checkAction t m.trx.actions = .ok ()
  | .scheduled _ _ => db.tables = t
  | .onerror _ _ _ => True

/-- The actions that a job can execute once `check_action` has passed in an
    emergency: its own by name, the fee actions, and what the check does not
    look at. -/
inductive Gated (env : Env σ) (job : Job) : Action → Prop where
  | own {a : Action} (hdelay : job.delay = 0) (ha : a ∈ (job.trx env).actions)
      (hname : a.name ∈ emergencyNames) : Gated env job a
  | fee {a : Action} (ha : Allowed a) : Gated env job a
  | contextFree {a : Action} (hkind : job.kind ≠ .scheduled)
      (ha : a ∈ (job.trx env).contextFreeActions) : Gated env job a
  | onerror {a : Action} (hkind : job.kind = .onerror) (ha : a ∈ (job.trx env).actions) :
      Gated env job a
  | sent {act a : Action} (hact : Gated env job act)
      (hsent : Sent env act (.executeInline a) ∨ Sent env act (.executeContextFreeInline a)) :
      Gated env job a

/-- What `check_action` does not look at is harmless as well. -/
structure Harmless (env : Env σ) (job : Job) : Prop where
  kind : job.kind ≠ .onerror
  contextFree : job.kind = .input → ∀ a ∈ (job.trx env).contextFreeActions, Allowed a
  account : job.delay = 0 → ∀ a ∈ (job.trx env).actions, a.account = N.eosio

/-- The names of actions that passed in an emergency. -/
theorem checkAction_names {actions : List Action} (hemergency : checkChainstatus t = .ok true)
    (h : checkAction t actions = .ok ()) : ∀ a ∈ actions, a.name ∈ emergencyNames := by
  rw [checkAction] at h
  obtain ⟨status, hstatus, hall⟩ := except_bind_ok h
  rw [hemergency] at hstatus
  obtain rfl : true = status := Except.ok.inj hstatus
  intro a ha
  obtain ⟨_, _, hname⟩ := except_bind_ok (except_forM_ok hall a ha)
  obtain hfalse | hname := eosAssert_ok hname
  · cases hfalse
  · exact hname

theorem allowed_feeAction {c : Context} {fee : Asset} {feeAct : Action}
    (h : mkFeeAction env t c fee = .ok feeAct) : Allowed feeAct := by
  obtain ⟨name, bp, hname, rfl⟩ := mkFeeAction_ok h
  refine ⟨rfl, ?_⟩
  show name ∈ emergencyNames
  obtain rfl | rfl := hname
  · decide
  · decide

/-- Where the gate has passed the job's own actions, every action that is
    scheduled is one of `Gated`. -/
theorem stable_gated (c : Context) (hdelay : c.delay = job.delay) (htrx : c.trx = job.trx env)
    (hcfa : c.applyContextFree = decide (job.kind ≠ .scheduled))
    (hnames : job.kind ≠ .onerror → ∀ a ∈ (job.trx env).actions, a.name ∈ emergencyNames) :
    Stable (Step env) fun s => Executing c s ∧ AllTraces (fun t => Gated env job t.act) s := by
  refine stable_allTraces (stable_executing c) ?_ ?_
  · intro s t hs hall hsched
    have hfixed : fixed c = fixed s.ctx := Eq.symm hs
    cases hsched with
    | notification _ hact =>
      obtain ⟨u, hu, hsame⟩ := hact
      rw [← hsame]
      exact hall.traces u hu
    | inlined _ hact hsent _ _ _ =>
      obtain ⟨u, hu, rfl⟩ := hact
      exact .sent (hall.traces u hu) (.inl hsent)
    | contextFreeInline _ hact hsent _ _ =>
      obtain ⟨u, hu, rfl⟩ := hact
      exact .sent (hall.traces u hu) (.inr hsent)
    | original horigin _ _ =>
      obtain ⟨_, hdue⟩ | ⟨_, hdue⟩ := horigin
      · obtain ⟨hzero, hmem⟩ := due_of_fixed hfixed hdue
        rw [hdelay] at hzero
        rw [htrx] at hmem
        by_cases hkind : job.kind = .onerror
        · exact .onerror hkind hmem
        · exact .own hzero hmem (hnames hkind _ hmem)
      · obtain ⟨happly, hmem⟩ := due_of_fixed hfixed hdue
        rw [hcfa] at happly
        rw [htrx] at hmem
        exact .contextFree (of_decide_eq_true happly) hmem
  · intro s act feeAct fee c' _ hcharged
    exact .fee (allowed_feeAction hcharged.made)

/-! ## What is executed -/

/-- The names of a job's own actions have been checked. -/
theorem checked_names (hemergency : checkChainstatus t = .ok true) (hchecked : Checked t db job)
    (hpassed : job.passed db) (hkind : job.kind ≠ .onerror) :
    ∀ a ∈ (job.trx env).actions, a.name ∈ emergencyNames := by
  cases job with
  | input m b => exact checkAction_names hemergency hchecked
  | scheduled g b =>
    rw [Job.passed, show db.tables = t from hchecked] at hpassed
    exact checkAction_names hemergency hpassed
  | onerror g b enforce => exact absurd rfl hkind

/-- However a job ends, what it executes has passed the gate or was not looked
    at. -/
theorem executed_gated (hemergency : checkChainstatus t = .ok true) (hchecked : Checked t db job) :
    ∀ x ∈ (final (job.run env node db)).ctx.executed, Gated env job x.trace.act := by
  cases outcome_run env node db job with
  | refused h _ =>
    rw [h]
    exact List.forall_mem_nil _
  | ran s1 s2 hr hsteps hsettled =>
    rw [hsettled.executed]
    refine ((stable_gated s1.ctx hr.delay hr.trx hr.contextFree
      (checked_names hemergency hchecked hr.passed)).run hsteps ⟨rfl, ?_, ?_⟩).2.executed
    · intro u hu
      -- only an `onerror` transaction starts with a trace
      obtain ⟨hkind, _, hact⟩ := hr.traces u hu
      exact .onerror hkind hact
    · rw [hr.executed]
      exact List.forall_mem_nil _

/-- Of a harmless job only allowed actions can be executed. -/
theorem allowed_of_gated (htame : Tame env) (hharmless : Harmless env job) {a : Action}
    (h : Gated env job a) : Allowed a := by
  induction h with
  | own hdelay ha hname => exact ⟨hharmless.account hdelay _ ha, hname⟩
  | fee ha => exact ha
  | contextFree hkind ha =>
    refine hharmless.contextFree ?_ _ ha
    cases hk : job.kind with
    | input => rfl
    | scheduled => exact absurd hk hkind
    | onerror => exact absurd hk hharmless.kind
  | onerror hkind _ => exact absurd hkind hharmless.kind
  | sent _ hsent ih => exact htame _ _ ih hsent

/-- A transaction that only seems to end an emergency: it brings a
    context-free action for another account. -/
def stowaway : TrxMetadata where
  id := 200
  trx :=
    { expiration := 200
      contextFreeActions := [⟨SmallChain.alice, ⟨7⟩, [], []⟩]
      actions := [⟨N.eosio, N.setemergency, [⟨SmallChain.alice, N.active⟩], []⟩]
      fee := ⟨100000, coreSymbol⟩ }

/-- A transaction whose only action has an allowed name, but is one of
    `alice`. -/
def namesake : TrxMetadata where
  id := 200
  trx :=
    { expiration := 200
      actions := [⟨SmallChain.alice, N.setemergency, [⟨SmallChain.alice, N.active⟩], []⟩]
      fee := ⟨100000, coreSymbol⟩ }

/-- The small chain in an emergency, with a `setfee` row for what `alice`
    runs. -/
def emergencyDb (code : Digest) : Db Unit :=
  { SmallChain.db none code true with
    tables :=
      { SmallChain.tables none code true with
        actionFees := fun a _ =>
          if a = SmallChain.alice then some ⟨⟨100, coreSymbol⟩, 100000, 100000, 100000⟩
          else none } }

/-- A run of it, where the code of `alice` sends a transfer. -/
def emergencyRun (code : Digest) (job : Job) :
    EStateM.Result FcException (ExecState Unit) (Option FcException) :=
  job.run (SmallChain.env 10 FeeOrigins.retrying) SmallChain.producer (emergencyDb code)

/-- The accounts and names of what a run has executed. -/
def executedNames (r : EStateM.Result FcException (ExecState Unit) (Option FcException)) :
    List (Name × Name) :=
  (final r).ctx.executed.map fun x => (x.trace.act.account, x.trace.act.name)

end Emergency
