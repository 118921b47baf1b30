import EosForce.QuietStepProofs

/-! # What a transaction in execution can do

    Besides quiet steps an execution writes tables, schedules an action, with
    its fee action before it where fees are due, and enters the receipt of a
    scheduled one.  Every function of `apply_context` and
    `transaction_context::exec` goes by these steps alone, so a property of
    whole executions needs a look at each kind of step and no more. -/

namespace ExecSteps

open ChainTypes TrxTypes Effect Database FeeRule TrxContext ApplyContext StepRule
open QuietStep Relation List

variable {σ : Type}

/-! ## The steps -/

/-- The programs that may run for an action. -/
inductive CodeFor (env : Env σ) (act : Action) : Program σ → Prop where
  | native {receiver : Name} {p : Program σ}
      (h : env.native receiver act.account act.name = some p) : CodeFor env act p
  | wasm (codeHash : Digest) (h : ¬ act.isFee) : CodeFor env act (env.wasm codeHash)

/-- Some program makes the call when it runs for the action. -/
def Sent (env : Env σ) (act : Action) (call : HostCall σ) : Prop :=
  ∃ p db inv, CodeFor env act p ∧ inv.act = act ∧ call ∈ p db inv

/-- Some program asks for the change of RAM. -/
def Asked (env : Env σ) (account : Name) (d : Int) : Prop :=
  ∃ act call, Sent env act call ∧ Asks call account d

/-- An action that was scheduled. -/
def InTraces (act : Action) (s : ExecState σ) : Prop :=
  ∃ t ∈ s.ctx.actionTraces, t.act = act

/-- The part of a context that execution leaves alone. -/
def fixed (c : Context) : Context :=
  { c with ticks := 0, validateRamUsage := [], netUsage := 0, feeCosted := Asset.zero,
           cpuLimitByContract := 0, netLimitByContract := 0, useLimitByContract := false,
           actionTraces := [], executed := [] }

/-- Changes of a context that schedule and execute nothing. -/
structure Booked (c c' : Context) : Prop where
  fixed : fixed c' = fixed c
  traces : c'.actionTraces = c.actionTraces
  executed : c'.executed = c.executed

/-- The state with one more action scheduled. -/
def schedule (s : ExecState σ) (t : ActionTrace) : ExecState σ :=
  { s with ctx := { s.ctx with actionTraces := s.ctx.actionTraces ++ [t] } }

/-- The trace that `schedule_action` enters. -/
def traceOf (s : ExecState σ) (act : Action) (receiver : Name) (contextFree : Bool)
    (creator : Nat) (origin : Origin) : ActionTrace :=
  ⟨act, receiver, contextFree, creator, origin, getRequiredFee s.db.tables act.account act.name⟩

/-- A fee for the action can be told where fees are due. -/
def FeeKnown (s : ExecState σ) (act : Action) : Prop :=
  s.ctx.isNeedFeeAction → ∃ fee, getRequiredFee s.db.tables act.account act.name = .ok fee

/-- The action stands in the transaction and is to be executed now. -/
def Due (c : Context) (contextFree : Bool) (act : Action) : Prop :=
  if contextFree then c.applyContextFree = true ∧ act ∈ c.trx.contextFreeActions
  else c.delay = 0 ∧ act ∈ c.trx.actions

theorem due_contextFree {c : Context} (h : c.applyContextFree = true) :
    ∀ a ∈ c.trx.contextFreeActions, Due c true a := fun _ ha => ⟨h, ha⟩

theorem due_actions {c : Context} (h : c.delay = 0) : ∀ a ∈ c.trx.actions, Due c false a :=
  fun _ ha => ⟨h, ha⟩

/-- What may be scheduled besides fee actions. -/
inductive Scheduled (env : Env σ) (s : ExecState σ) : ActionTrace → Prop where
  | notification {t : ActionTrace} (horigin : t.origin = .notification)
      (hact : InTraces t.act s) : Scheduled env s t
  | inlined {t : ActionTrace} {act : Action} (horigin : t.origin = .inlined)
      (hact : InTraces act s) (hsent : Sent env act (.executeInline t.act))
      (hcall : 4470000 < env.headBlockNum → ¬ noCall t.act)
      (hreceiver : t.receiver = t.act.account) (hfee : FeeKnown s t.act) : Scheduled env s t
  | contextFreeInline {t : ActionTrace} {act : Action} (horigin : t.origin = .contextFreeInline)
      (hact : InTraces act s) (hsent : Sent env act (.executeContextFreeInline t.act))
      (hreceiver : t.receiver = t.act.account) (hfee : FeeKnown s t.act) : Scheduled env s t
  | original {t : ActionTrace}
      (horigin : t.origin = .transaction ∧ Due s.ctx false t.act ∨
        t.origin = .contextFree ∧ Due s.ctx true t.act)
      (hreceiver : t.receiver = t.act.account) (hfee : FeeKnown s t.act) : Scheduled env s t

/-- A fee action was made for `act`, and `c` is the context with its fee
    accounted for. -/
structure Charged (env : Env σ) (act : Action) (s : ExecState σ) (fee : Asset)
    (feeAct : Action) (c : Context) : Prop where
  need : s.ctx.isNeedFeeAction
  required : getRequiredFee s.db.tables act.account act.name = .ok fee
  made : mkFeeAction env s.db.tables s.ctx fee = .ok feeAct
  costed : s.ctx.feeCosted.add fee = .ok c.feeCosted
  within : s.ctx.maxFeeToPay ≠ Asset.zero → c.feeCosted.le s.ctx.maxFeeToPay = .ok true
  booked : Booked s.ctx c

/-- One step of an execution.  A refused fee may leave its amount counted. -/
inductive Step (env : Env σ) : ExecState σ → ExecState σ → Prop where
  | quiet {s s' : ExecState σ} (h : Quiet env (Asked env) s s') : Step env s s'
  | write (s : ExecState σ) (act : Action) (f : Tables σ → Tables σ) (hact : InTraces act s)
      (hsent : Sent env act (.write f)) :
      Step env s { s with db := { s.db with tables := f s.db.tables } }
  | schedule (s : ExecState σ) (t : ActionTrace) (h : Scheduled env s t) : Step env s (schedule s t)
  | charge (s : ExecState σ) {act feeAct : Action} {fee : Asset} {c : Context}
      (h : Charged env act s fee feeAct c) :
      Step env s (ExecSteps.schedule ⟨s.db, c⟩ (traceOf s feeAct N.eosio false 0 (.feeAction fee)))
  | refuse (s : ExecState σ) (c : Context) (h : Booked s.ctx c) : Step env s { s with ctx := c }
  | execute (s : ExecState σ) (e : Executed) (h : e.trace ∈ s.ctx.actionTraces) :
      Step env s { s with ctx := { s.ctx with executed := s.ctx.executed ++ [e] } }

/-- What steps never touch, and the lists that they only add to. -/
structure Grows (s s' : ExecState σ) : Prop where
  fixed : fixed s'.ctx = fixed s.ctx
  traces : s.ctx.actionTraces <+: s'.ctx.actionTraces
  executed : s.ctx.executed <+: s'.ctx.executed

theorem Grows.refl (s : ExecState σ) : Grows s s :=
  ⟨rfl, prefix_refl _, prefix_refl _⟩

theorem Grows.trans {a b c : ExecState σ} (h : Grows a b) (h' : Grows b c) : Grows a c :=
  ⟨h'.fixed.trans h.fixed, h.traces.trans h'.traces, h.executed.trans h'.executed⟩

variable {c c' : Context}

theorem Booked.of_ticked (h : Ticked c c') : Booked c c' := by
  have hfixed := congrArg ExecSteps.fixed h.still
  have htraces := congrArg Context.actionTraces h.still
  have hexecuted := congrArg Context.executed h.still
  exact ⟨hfixed, htraces, hexecuted⟩

theorem Booked.grows (h : Booked c c') (db db' : Db σ) : Grows ⟨db, c⟩ ⟨db', c'⟩ := by
  refine ⟨h.fixed, ⟨[], ?_⟩, ⟨[], ?_⟩⟩
  · rw [append_nil, h.traces]
  · rw [append_nil, h.executed]

theorem grows_schedule (s : ExecState σ) (t : ActionTrace) : Grows s (schedule s t) :=
  ⟨rfl, prefix_append _ _, prefix_refl _⟩

variable {s s' : ExecState σ} {env : Env σ}

theorem Step.grows (h : Step env s s') : Grows s s' := by
  cases h with
  | quiet h => exact (Booked.of_ticked h.ticked).grows _ _
  | write act f _ _ => exact ⟨rfl, prefix_refl _, prefix_refl _⟩
  | schedule t _ => exact grows_schedule s t
  | charge h => exact (h.booked.grows _ _).trans (grows_schedule _ _)
  | refuse c h => exact h.grows _ _
  | execute e _ => exact ⟨rfl, prefix_refl _, prefix_append _ _⟩

/-- **GROWTH**: an execution leaves the fixed part of its context alone and
    takes nothing back from its lists. -/
theorem grows_of_steps (h : ReflTransGen (Step env) s s') : Grows s s' :=
  run_rel Grows.refl (fun _ _ _ hab hbc => hab.trans hbc.grows) h

theorem stable_inTraces (act : Action) : Stable (Step env) (InTraces act) := by
  rintro s s' hstep ⟨t, ht, hact⟩
  exact ⟨t, hstep.grows.traces.subset ht, hact⟩

/-- The code of an action, part by part. -/
theorem moves_seq {α β : Type} {act : Action} {x : ExecM σ α} {f : α → ExecM σ β}
    (hx : Moves (Step env) (InTraces act) x) (hf : ∀ a, Moves (Step env) (InTraces act) (f a)) :
    Moves (Step env) (InTraces act) (x >>= f) := hx.seq (stable_inTraces act) hf

/-! ## Properties of traces -/

/-- The context in execution is `c`, less what execution changes. -/
def Executing (c : Context) (s : ExecState σ) : Prop := fixed s.ctx = fixed c

theorem stable_executing (c : Context) : Stable (Step env) (Executing c) := by
  intro s s' hstep hs
  exact hstep.grows.fixed.trans hs

variable {contextFree : Bool}

theorem due_of_fixed (h : fixed c' = fixed c) {act : Action} (hdue : Due c contextFree act) :
    Due c' contextFree act := by
  have htrx := congrArg Context.trx h
  have hdelay := congrArg Context.delay h
  have happly := congrArg Context.applyContextFree h
  rw [Due, show c'.trx = c.trx from htrx, show c'.delay = c.delay from hdelay,
    show c'.applyContextFree = c.applyContextFree from happly]
  exact hdue

/-- Every trace, scheduled or executed, has `P`. -/
structure AllTraces (P : ActionTrace → Prop) (s : ExecState σ) : Prop where
  traces : ∀ t ∈ s.ctx.actionTraces, P t
  executed : ∀ e ∈ s.ctx.executed, P e.trace

theorem AllTraces.of_booked {P : ActionTrace → Prop} {db db' : Db σ} (h : Booked c c')
    (hP : AllTraces P (⟨db, c⟩ : ExecState σ)) : AllTraces P ⟨db', c'⟩ := by
  constructor
  · show ∀ t ∈ c'.actionTraces, P t
    rw [h.traces]
    exact hP.traces
  · show ∀ e ∈ c'.executed, P e.trace
    rw [h.executed]
    exact hP.executed

theorem AllTraces.schedule {P : ActionTrace → Prop} {s : ExecState σ} {t : ActionTrace}
    (hP : AllTraces P s) (ht : P t) : AllTraces P (schedule s t) := by
  refine ⟨?_, hP.executed⟩
  exact forall_mem_append.mpr ⟨hP.traces, forall_mem_singleton.mpr ht⟩

/-- **TRACES BY INDUCTION**: a property that every action has when it is
    scheduled, all traces have. -/
theorem stable_allTraces {J : ExecState σ → Prop} {P : ActionTrace → Prop}
    (hJ : Stable (Step env) J) (hsched : ∀ s t, J s → AllTraces P s → Scheduled env s t → P t)
    (hfee : ∀ s (act feeAct : Action) fee c, J s → Charged env act s fee feeAct c →
      P (traceOf s feeAct N.eosio false 0 (.feeAction fee))) :
    Stable (Step env) fun s => J s ∧ AllTraces P s := by
  rintro s s' hstep ⟨hs, hP⟩
  refine ⟨hJ hstep hs, ?_⟩
  cases hstep with
  | quiet h => exact hP.of_booked (.of_ticked h.ticked)
  | write act f _ _ => exact ⟨hP.traces, hP.executed⟩
  | schedule t h => exact hP.schedule (hsched s t hs hP h)
  | charge h => exact AllTraces.schedule (hP.of_booked h.booked) (hfee s _ _ _ _ hs h)
  | refuse c h => exact hP.of_booked h
  | execute e h =>
    refine ⟨hP.traces, ?_⟩
    exact forall_mem_append.mpr ⟨hP.executed, forall_mem_singleton.mpr (hP.traces _ h)⟩

/-- Quiet code goes by steps. -/
theorem moves_of_quietly {α : Type} {I : ExecState σ → Prop} {x : ExecM σ α}
    (h : Quietly env (Asked env) x) :
    Moves (Step env) I x := h.mono (fun _ _ => .quiet) fun _ _ => trivial

/-! ## Scheduling -/

variable {env : Env σ} {node : Node} {I : ExecState σ → Prop}

theorem Booked.refl (c : Context) : Booked c c := ⟨rfl, rfl, rfl⟩

theorem scheduleAction_eq (act : Action) (receiver : Name) (contextFree : Bool)
    (creator : Nat) (origin : Origin) (s : ExecState σ) :
    scheduleAction act receiver contextFree creator origin s =
      .ok (s.ctx.actionTraces.length + 1)
        (schedule s (traceOf s act receiver contextFree creator origin)) := rfl

/-- How `schedule_fee_action` can end. -/
inductive FeeOutcome (env : Env σ) (act : Action) (s : ExecState σ) :
    EStateM.Result FcException (ExecState σ) (Option Nat) → Prop where
  | exempt (h : ¬ s.ctx.isNeedFeeAction) : FeeOutcome env act s (.ok none s)
  | charged {fee : Asset} {feeAct : Action} {c : Context} (h : Charged env act s fee feeAct c) :
      FeeOutcome env act s (.ok (some (s.ctx.actionTraces.length + 1))
        (schedule { s with ctx := c } (traceOf s feeAct N.eosio false 0 (.feeAction fee))))
  | refused {e : FcException} {c : Context} (h : Booked s.ctx c) :
      FeeOutcome env act s (.error e { s with ctx := c })

theorem addLimitByFee_booked (t : Tables σ) (act : Action) (c : Context) :
    Booked c (addLimitByFee t act c) ∧ (addLimitByFee t act c).feeCosted = c.feeCosted := by
  rw [addLimitByFee]
  cases t.actionFees act.account act.name with
  | none => exact ⟨.refl c, rfl⟩
  | some info => exact ⟨⟨rfl, rfl, rfl⟩, rfl⟩

/-- The limit on the fee as `charge_fee` checks it. -/
theorem checkFeeLimit_cases (feeCosted limit : Asset) (s : ExecState σ) :
    (limit ≠ Asset.zero → feeCosted.le limit = .ok true) ∧
        whenever (limit ≠ Asset.zero) (do
          let within ← raise (feeCosted.le limit)
          require (within = true) .transaction "fee costed more then limit") s = .ok () s ∨
      ∃ e, whenever (limit ≠ Asset.zero) (do
          let within ← raise (feeCosted.le limit)
          require (within = true) .transaction "fee costed more then limit") s = .error e s := by
  by_cases hlimit : limit ≠ Asset.zero
  · rw [whenever, if_pos hlimit]
    cases hle : feeCosted.le limit with
    | error e => exact .inr ⟨e, rfl⟩
    | ok within =>
      cases within with
      | false => exact .inr ⟨_, rfl⟩
      | true => exact .inl ⟨fun _ => rfl, rfl⟩
  · rw [whenever, if_neg hlimit]
    exact .inl ⟨fun h => absurd h hlimit, rfl⟩

theorem chargeFee_outcome {act feeAct : Action} {s : ExecState σ} {fee feeCosted : Asset}
    (hneed : s.ctx.isNeedFeeAction)
    (hfee : getRequiredFee s.db.tables act.account act.name = .ok fee)
    (hmade : mkFeeAction env s.db.tables s.ctx fee = .ok feeAct)
    (hcost : s.ctx.feeCosted.add fee = .ok feeCosted) :
    FeeOutcome env act s ((do
      let ordinal ← chargeFee act feeAct fee feeCosted
      pure (some ordinal) : ExecM σ (Option Nat)) s) := by
  have hbook := addLimitByFee_booked s.db.tables act (s.ctx.setFeeCosted feeCosted)
  obtain ⟨hwithin, hok⟩ | ⟨e, herr⟩ := checkFeeLimit_cases feeCosted s.ctx.maxFeeToPay
    { s with ctx := s.ctx.setFeeCosted feeCosted }
  · have hrun : chargeFee act feeAct fee feeCosted s = .ok (s.ctx.actionTraces.length + 1)
        (schedule ⟨s.db, addLimitByFee s.db.tables act (s.ctx.setFeeCosted feeCosted)⟩
          (traceOf s feeAct N.eosio false 0 (.feeAction fee))) := by
      rw [chargeFee, get_bind, modifyCtx, modify_bind, bind_ok hok, modifyCtx, modify_bind,
        scheduleAction_eq]
      dsimp only
      rw [hbook.1.traces]
      rfl
    rw [bind_ok hrun]
    refine .charged ⟨hneed, hfee, hmade, ?_, ?_, ?_⟩
    · rw [hbook.2]
      exact hcost
    · rw [hbook.2]
      exact hwithin
    · exact ⟨hbook.1.fixed, hbook.1.traces, hbook.1.executed⟩
  · have hrun : chargeFee act feeAct fee feeCosted s =
        .error e { s with ctx := s.ctx.setFeeCosted feeCosted } := by
      rw [chargeFee, get_bind, modifyCtx, modify_bind, bind_error herr]
    rw [bind_error hrun]
    exact .refused ⟨rfl, rfl, rfl⟩

theorem scheduleFeeAction_outcome (env : Env σ) (act : Action) (s : ExecState σ) :
    FeeOutcome env act s (scheduleFeeAction env act s) := by
  rw [scheduleFeeAction, get_bind]
  by_cases hneed : s.ctx.isNeedFeeAction
  · rw [if_pos hneed]
    cases hfee : getRequiredFee s.db.tables act.account act.name with
    | error e => exact .refused (.refl _)
    | ok fee =>
      rw [raise_bind_ok rfl]
      cases hmade : mkFeeAction env s.db.tables s.ctx fee with
      | error e => exact .refused (.refl _)
      | ok feeAct =>
        rw [raise_bind_ok rfl]
        by_cases hlock : getNumConfigOnChain s.db.tables s.ctx.feePayer (-1) ≠ 1
        · rw [bind_ok (require_pos hlock s)]
          cases hcost : s.ctx.feeCosted.add fee with
          | error e => exact .refused (.refl _)
          | ok feeCosted =>
            rw [raise_bind_ok rfl]
            exact chargeFee_outcome hneed hfee hmade hcost
        · rw [bind_error (require_neg hlock s)]
          exact .refused (.refl _)
  · rw [if_neg hneed]
    exact .exempt hneed

theorem Booked.feePayer (h : Booked c c') : c'.feePayer = c.feePayer := by
  have hpayer := congrArg Context.feePayer h.fixed
  exact hpayer

theorem Booked.maxFeeToPay (h : Booked c c') : c'.maxFeeToPay = c.maxFeeToPay := by
  have hmax := congrArg Context.maxFeeToPay h.fixed
  exact hmax

/-- A charged action is two scheduled actions, or one where no fee is due. -/
theorem scheduleCharged_eq (env : Env σ) (act : Action) (contextFree : Bool) (creator : Nat)
    (origin : Origin) (s : ExecState σ) :
    (¬ s.ctx.isNeedFeeAction ∧ scheduleCharged env act contextFree creator origin s =
      .ok [s.ctx.actionTraces.length + 1]
        (schedule s (traceOf s act act.account contextFree creator origin))) ∨
    (∃ fee feeAct c, Charged env act s fee feeAct c ∧
      scheduleCharged env act contextFree creator origin s =
        .ok [s.ctx.actionTraces.length + 1, s.ctx.actionTraces.length + 2]
          (schedule (schedule ⟨s.db, c⟩ (traceOf s feeAct N.eosio false 0 (.feeAction fee)))
            (traceOf s act act.account contextFree creator origin))) ∨
    ∃ e c, Booked s.ctx c ∧
      scheduleCharged env act contextFree creator origin s = .error e ⟨s.db, c⟩ := by
  have hout := scheduleFeeAction_outcome env act s
  cases hr : scheduleFeeAction env act s with
  | error e s' =>
    rw [hr] at hout
    cases hout with
    | refused h => exact .inr (.inr ⟨e, _, h, bind_error hr⟩)
  | ok fee s' =>
    rw [hr] at hout
    cases hout with
    | exempt h =>
      refine .inl ⟨h, ?_⟩
      rw [scheduleCharged, bind_ok hr]
      rfl
    | @charged charge feeAct c h =>
      refine .inr (.inl ⟨charge, feeAct, c, h, ?_⟩)
      have hlen : (c.actionTraces ++ [traceOf s feeAct N.eosio false 0 (.feeAction charge)]).length
          = s.ctx.actionTraces.length + 1 := by
        rw [h.booked.traces, length_append]
        rfl
      rw [scheduleCharged, bind_ok hr, bind_ok (scheduleAction_eq _ _ _ _ _ _)]
      show EStateM.Result.ok [s.ctx.actionTraces.length + 1, _ + 1] _ = _
      rw [schedule, hlen]
      rfl

/-- Scheduling a charged action goes by steps if the action itself may be
    scheduled once a fee for it is known. -/
theorem moves_scheduleCharged (hI : Stable (Step env) I) {act : Action} {creator : Nat}
    {origin : Origin} (hsched : ∀ s : ExecState σ, I s → FeeKnown s act →
      Scheduled env s (traceOf s act act.account contextFree creator origin)) :
    Moves (Step env) I (scheduleCharged env act contextFree creator origin) := by
  intro s hs
  obtain ⟨hneed, hr⟩ | ⟨fee, feeAct, c, h, hr⟩ | ⟨e, c, h, hr⟩ :=
    scheduleCharged_eq env act contextFree creator origin s
  · rw [hr]
    exact .single (.schedule s _ (hsched s hs fun hn => absurd hn hneed))
  · rw [hr]
    have hfee := Step.charge s h
    have hact := hsched _ (hI hfee hs) fun _ => ⟨fee, h.required⟩
    exact .tail (.single hfee) (.schedule _ _ hact)
  · rw [hr]
    exact .single (.refuse s c h)

/-! ## Calls -/

section Exec

variable {a : Apply}

theorem moves_requireRecipient (recipient : Name) :
    Moves (Step env) (InTraces a.act) (requireRecipient a recipient : ExecM σ Apply) := by
  rw [requireRecipient]
  split
  · exact .pure _
  · refine moves_seq ?_ fun _ => .pure _
    intro s hs
    rw [scheduleAction_eq]
    exact .single (.schedule s _ (.notification rfl hs))

theorem moves_executeInline {x : Action} (hsent : Sent env a.act (.executeInline x)) :
    Moves (Step env) (InTraces a.act) (executeInline env node a x) := by
  refine .get_bind fun s _ => ?_
  refine moves_seq (moves_of_quietly quietly_require) fun _ => ?_
  refine .bind (stable_inTraces _) (moves_of_quietly quietly_require) fun _ _ _ _ hcall => ?_
  refine moves_seq (moves_of_quietly quietly_raise) fun _ => ?_
  refine moves_seq (.whenever fun _ => moves_of_quietly quietly_raise) fun _ => ?_
  refine moves_seq (.whenever fun _ => moves_of_quietly (quietly_authorizeSent
    (quietly_checkAuthorization _ _ _ _ _))) fun _ => ?_
  refine moves_seq (moves_scheduleCharged (stable_inTraces _) fun s' hact hfee => ?_)
    fun _ => .pure _
  exact .inlined rfl hact hsent (require_ok hcall).1 rfl hfee

theorem moves_executeContextFreeInline {x : Action}
    (hsent : Sent env a.act (.executeContextFreeInline x)) :
    Moves (Step env) (InTraces a.act) (executeContextFreeInline env a x) := by
  refine .get_bind fun s _ => ?_
  refine moves_seq (moves_of_quietly quietly_require) fun _ => ?_
  refine moves_seq (moves_of_quietly quietly_require) fun _ => ?_
  refine moves_seq (moves_scheduleCharged (stable_inTraces _) fun s' hact hfee => ?_)
    fun _ => .pure _
  exact .contextFreeInline rfl hact hsent rfl hfee

/-- Every call of contract code goes by steps. -/
theorem moves_hostCall {call : HostCall σ} (hsent : Sent env a.act call) :
    Moves (Step env) (InTraces a.act) (hostCall env node a call) := by
  by_cases hquiet : IsQuiet call
  · exact moves_of_quietly (quietly_hostCall hquiet fun _ _ hasks => ⟨a.act, call, hsent, hasks⟩)
  · cases call with
    | write f =>
      refine moves_seq (.modify fun s hs => ?_) fun _ => .pure _
      exact .write s a.act f hs hsent
    | requireRecipient recipient => exact moves_requireRecipient recipient
    | executeInline x => exact moves_executeInline hsent
    | executeContextFreeInline x => exact moves_executeContextFreeInline hsent
    | _ => exact absurd trivial hquiet

/-- What no call changes in the apply context. -/
structure Held (a a' : Apply) : Prop where
  receiver : a'.receiver = a.receiver
  actionOrdinal : a'.actionOrdinal = a.actionOrdinal
  act : a'.act = a.act

theorem Held.refl (a : Apply) : Held a a := ⟨rfl, rfl, rfl⟩

theorem Held.trans {a b c : Apply} (h : Held a b) (h' : Held b c) : Held a c :=
  ⟨h'.receiver.trans h.receiver, h'.actionOrdinal.trans h.actionOrdinal, h'.act.trans h.act⟩

theorem held_hostCall (call : HostCall σ) : Returns (Held a) (hostCall env node a call) := by
  by_cases hquiet : IsQuiet call
  · exact (same_hostCall hquiet).weaken fun _ h => ⟨h.receiver, h.actionOrdinal, h.act⟩
  · cases call with
    | write f => exact .seq fun _ => .pure (.refl a)
    | requireRecipient recipient =>
      show Returns (Held a) (requireRecipient a recipient)
      rw [requireRecipient]
      split
      · exact .pure (.refl a)
      · exact .seq fun _ => .pure ⟨rfl, rfl, rfl⟩
    | executeInline x =>
      exact .seq fun _ => .seq fun _ => .seq fun _ => .seq fun _ => .seq fun _ =>
        .seq fun _ => .seq fun _ => .pure ⟨rfl, rfl, rfl⟩
    | executeContextFreeInline x =>
      exact .seq fun _ => .seq fun _ => .seq fun _ => .seq fun _ => .pure ⟨rfl, rfl, rfl⟩
    | _ => exact absurd trivial hquiet

/-! ## Code -/

theorem moves_runProgram {p : Program σ} (hp : CodeFor env a.act p) :
    Moves (Step env) (InTraces a.act) (runProgram env node a p) := by
  refine .get_bind fun s _ => ?_
  refine .foldlM (stable_inTraces a.act) (J := Held a) ?_ ?_ (Held.refl a)
  · intro b hb call hcall
    have hsent : Sent env b.act call := by
      rw [hb.act]
      exact ⟨p, s.db, _, hp, rfl, hcall⟩
    have hmoves : Moves (Step env) (InTraces b.act) (hostCall env node b call) :=
      moves_hostCall hsent
    rw [hb.act] at hmoves
    exact hmoves
  · intro b call s1 b' s2 hb hr
    exact hb.trans (held_hostCall call s1 b' s2 hr)

theorem held_runProgram (p : Program σ) : Returns (Held a) (runProgram env node a p) := by
  intro s b s' hr
  rw [runProgram, get_bind] at hr
  exact foldlM_returns (J := Held a) (fun b call s1 b' s2 hb h =>
    hb.trans (held_hostCall call s1 b' s2 h)) (Held.refl a) s b s' hr

theorem moves_runNative : Moves (Step env) (InTraces a.act) (runNative env node a) := by
  rw [runNative]
  cases hfind : findApplyHandler env a.receiver a.act.account a.act.name with
  | none => exact .pure a
  | some handler =>
    refine moves_seq (moves_of_quietly quietly_checkLists) fun _ => ?_
    obtain ⟨p, rfl, hp⟩ | ⟨apply, rfl, hkept⟩ := findApplyHandler_cases hfind
    · exact moves_runProgram (.native hp)
    · exact moves_of_quietly (quietly_feeHandler hkept)

theorem held_runNative : Returns (Held a) (runNative env node a) := by
  rw [runNative]
  cases findApplyHandler env a.receiver a.act.account a.act.name with
  | none => exact .pure (.refl a)
  | some handler =>
    refine .seq fun _ => ?_
    cases handler with
    | program p => exact held_runProgram p
    | fee apply => exact .seq fun _ => .seq fun _ => .pure (.refl a)

theorem moves_runWasm : Moves (Step env) (InTraces a.act) (runWasm env node a) := by
  refine moves_seq (moves_of_quietly (quietly_getAccount _)) fun m => ?_
  split
  · rename_i hruns
    exact moves_seq (moves_of_quietly quietly_checkLists) fun _ =>
      moves_runProgram (.wasm _ hruns.1)
  · exact .pure a

theorem held_runWasm : Returns (Held a) (runWasm env node a) := by
  refine .seq fun m => ?_
  split
  · exact .seq fun _ => held_runProgram _
  · exact .pure (.refl a)

theorem moves_runCode : Moves (Step env) (InTraces a.act) (runCode env node a) := by
  refine .mapError (moves_seq (moves_of_quietly (quietly_getAccount _)) fun m => ?_)
  have hnative : Moves (Step env) (InTraces a.act)
      (runNative env node { a with privileged := m.privileged }) :=
    moves_runNative (a := { a with privileged := m.privileged })
  refine .bind (stable_inTraces _) hnative fun s b s' _ hb => ?_
  have hact : b.act = a.act := (held_runNative s b s' hb).act
  have hwasm : Moves (Step env) (InTraces b.act) (runWasm env node b) := moves_runWasm
  rw [hact] at hwasm
  exact moves_seq hwasm fun c => moves_seq
    (.whenever fun _ => moves_of_quietly (quietly_checkRamDeltas _ _)) fun _ => .pure c

theorem held_runCode : Returns (Held a) (runCode env node a) := by
  refine .mapError (.seq fun m => ?_)
  refine .bind held_runNative fun b hb => ?_
  refine .bind held_runWasm fun c hc => ?_
  have hheld : Held a c := Held.trans ⟨hb.receiver, hb.actionOrdinal, hb.act⟩ hc
  exact .seq fun _ => .pure hheld

/-! ## Receipts -/

/-- A trace that `get_action_trace` finds is in the list. -/
theorem getActionTrace_ok {ordinal : Nat} {t : ActionTrace}
    (h : getActionTrace ordinal s = .ok t s') :
    s' = s ∧ s.ctx.actionTraces[ordinal - 1]? = some t ∧ 0 < ordinal := by
  rw [getActionTrace, get_bind] at h
  cases ordinal with
  | zero => exact nomatch h
  | succ n =>
    cases htrace : s.ctx.actionTraces[n + 1 - 1]? with
    | none =>
      rw [htrace] at h
      exact nomatch h
    | some u =>
      rw [htrace] at h
      cases h
      exact ⟨rfl, rfl, Nat.succ_pos n⟩

theorem final_getActionTrace (ordinal : Nat) (s : ExecState σ) :
    final (getActionTrace ordinal s) = s := by
  rw [getActionTrace, get_bind]
  cases ordinal with
  | zero => rfl
  | succ n =>
    cases s.ctx.actionTraces[n + 1 - 1]? with
    | none => rfl
    | some t => rfl

theorem moves_recordReceipt (hI : Stable (Step env) I) :
    Moves (Step env) I (recordReceipt env a) := by
  refine .seq hI (moves_of_quietly (quietly_keep (fun _ => .refl _) fun _ => ⟨rfl, rfl⟩))
    fun _ => ?_
  refine .seq hI (moves_of_quietly (quietly_getAccount _)) fun m => ?_
  refine .seq hI (moves_of_quietly (quietly_keep (fun _ => ⟨rfl, rfl, rfl, rfl, rfl⟩)
    fun _ => ⟨rfl, rfl⟩)) fun _ => ?_
  refine .seq hI (moves_of_quietly (quietly_getAccount _)) fun first => ?_
  refine .get_bind fun s _ => ?_
  refine .seq hI (moves_of_quietly (quietly_nextAuthSequences _)) fun seqs => ?_
  intro s' _
  cases ht : getActionTrace a.actionOrdinal s' with
  | error e s1 =>
    have hfinal := final_getActionTrace a.actionOrdinal s'
    rw [ht] at hfinal
    rw [bind_error ht, ← hfinal]
    exact .refl
  | ok t s1 =>
    obtain ⟨rfl, hget, _⟩ := getActionTrace_ok ht
    rw [bind_ok ht]
    exact .single (.execute _ _ (mem_of_getElem? hget))

theorem moves_execOne : Moves (Step env) (InTraces a.act) (execOne env node a) := by
  exact moves_seq moves_runCode fun b => moves_seq
    (moves_recordReceipt (stable_inTraces _)) fun _ => .pure _

theorem held_execOne : Returns (Held a) (execOne env node a) := by
  refine .bind held_runCode fun b hb => .seq fun _ => .pure ?_
  exact ⟨hb.receiver, hb.actionOrdinal, hb.act⟩

theorem moves_execNotified (n : Nat) : ∀ (i : Nat) (a : Apply),
    Moves (Step env) (InTraces a.act) (execNotified env node n i a) := by
  induction n with
  | zero => exact fun _ a => .pure a
  | succ n ih =>
    intro i a
    rw [execNotified]
    cases a.notified[i]? with
    | none => exact .pure a
    | some next =>
      have hone : Moves (Step env) (InTraces a.act)
          (execOne env node { a with receiver := next.1, actionOrdinal := next.2 }) :=
        moves_execOne (a := { a with receiver := next.1, actionOrdinal := next.2 })
      refine .bind (stable_inTraces _) hone fun s b s' _ hb => ?_
      have hact : b.act = a.act := (held_execOne s b s' hb).act
      have hrest := ih (i + 1) b
      rw [hact] at hrest
      exact hrest

/-- What follows the first receiver of an action goes by steps. -/
theorem moves_afterOne {deeper : Nat → ExecM σ Unit} {depth : Nat} {b : Apply}
    (hdeeper : ∀ n, Moves (Step env) (fun _ => True) (deeper n)) :
    Moves (Step env) (InTraces b.act) (do
      let a ← execNotified env node (2 ^ 64) 1 b
      let cfg := (← get).db.tables.configuration
      require (a.cfaInlineActions ++ a.inlineActions ≠ [] →
          depth < cfg.maxInlineActionDepth.toNat) .transaction
        "max inline action depth per transaction reached"
      a.cfaInlineActions.forM deeper
      a.inlineActions.forM deeper) := by
  refine moves_seq (moves_execNotified (2 ^ 64) 1 b) fun c => .get_bind fun _ _ => ?_
  refine moves_seq (moves_of_quietly quietly_require) fun _ => ?_
  exact moves_seq (.forM (stable_inTraces _) fun n _ s _ => hdeeper n s trivial)
    fun _ => .forM (stable_inTraces _) fun n _ s _ => hdeeper n s trivial

/-- Executing one action goes by steps if executing those one level deeper
    does. -/
theorem moves_execWith {deeper : Nat → ExecM σ Unit} {depth ordinal : Nat}
    (hdeeper : ∀ n, Moves (Step env) (fun _ => True) (deeper n)) :
    Moves (Step env) (fun _ => True) (execWith env node deeper depth ordinal) := by
  intro s _
  rw [execWith]
  refine still_bind (P := ReflTransGen (Step env) s) (final_getActionTrace ordinal s) .refl ?_
  intro t ht
  obtain ⟨_, hget, _⟩ := getActionTrace_ok ht
  have hact : InTraces t.act s := ⟨t, mem_of_getElem? hget, rfl⟩
  refine Moves.bind (I := InTraces t.act) (stable_inTraces t.act)
    (moves_execOne (a := ⟨t.receiver, ordinal, t.act, t.contextFree, false, _, [], [], []⟩))
    (fun s1 b s2 _ hb => ?_) s hact
  have hsame : b.act = t.act := (held_execOne s1 b s2 hb).act
  rw [← hsame]
  exact moves_afterOne hdeeper

theorem moves_executeAction (n : Nat) : ∀ ordinal,
    Moves (Step env) (fun _ => True) (executeAction env node n ordinal) := by
  induction n with
  | zero => exact fun _ => moves_execWith fun _ => .pure ()
  | succ n ih => exact fun _ => moves_execWith ih

end Exec

theorem moves_scheduleOriginal {c : Context} {act : Action} (hdue : Due c contextFree act) :
    Moves (Step env) (Executing c) (scheduleOriginal env contextFree act) := by
  have hI : Stable (Step env) (Executing (σ := σ) c) := stable_executing c
  refine .seq hI (moves_scheduleCharged hI fun s hs hfee => ?_) fun _ => .pure ()
  have hnow := due_of_fixed hs hdue
  refine .original ?_ rfl hfee
  cases contextFree with
  | true => exact .inr ⟨rfl, hnow⟩
  | false => exact .inl ⟨rfl, hnow⟩

/-- The original actions of either kind. -/
theorem moves_scheduleOriginals {c : Context} {acts : List Action}
    (hdue : ∀ a ∈ acts, Due c contextFree a) :
    Moves (Step env) (Executing c) (acts.forM (scheduleOriginal env contextFree)) :=
  .forM (stable_executing c) fun a ha => moves_scheduleOriginal (hdue a ha)

/-- **EXECUTION BY STEPS**: `transaction_context::exec` does nothing but book,
    write, schedule and execute. -/
theorem moves_exec (s : ExecState σ) : ReflTransGen (Step env) s (final (exec env node s)) := by
  have hI : Stable (Step env) (Executing (σ := σ) s.ctx) := stable_executing s.ctx
  have hmoves : Moves (Step env) (Executing s.ctx) (do
      require (s.ctx.isInitialized = true) .transaction "must first initialize"
      whenever (s.ctx.applyContextFree = true)
        (s.ctx.trx.contextFreeActions.forM (scheduleOriginal env true))
      whenever (s.ctx.delay = 0) (s.ctx.trx.actions.forM (scheduleOriginal env false))
      let numOriginalActionsToExecute := (← get).ctx.actionTraces.length
      (List.range' 1 numOriginalActionsToExecute).forM (executeAction env node maxDepth)
      whenever (s.ctx.delay ≠ 0) (scheduleTransaction env node)) := by
    refine .seq hI (moves_of_quietly quietly_require) fun _ => ?_
    refine .seq hI (.whenever fun happly => moves_scheduleOriginals (due_contextFree happly))
      fun _ => ?_
    refine .seq hI (.whenever fun hdelay => moves_scheduleOriginals (due_actions hdelay))
      fun _ => ?_
    refine .get_bind fun s' _ => ?_
    refine .seq hI (.forM hI fun n _ s1 _ => moves_executeAction maxDepth n s1 trivial) fun _ => ?_
    exact .whenever fun _ => moves_of_quietly (quietly_scheduleTransaction node)
  rw [exec, get_bind]
  exact hmoves s rfl

/-! ## What is executed -/

section Executed

variable {a : Apply}

theorem nextAuthSequences_ctx {auths : List PermissionLevel} {seqs seqs' : List (Name × Nat)}
    (h : auths.foldlM nextAuthSequence seqs s = .ok seqs' s') : s'.ctx = s.ctx := by
  have hmoves : Moves (fun s s' : ExecState σ => s'.ctx = s.ctx) (fun _ => True)
      (auths.foldlM nextAuthSequence seqs) := by
    refine .foldlM stable_true (J := fun _ => True) (fun seqs _ auth _ => ?_)
      (fun _ _ _ _ _ _ _ => trivial) trivial
    exact .chain (.still (final_getAccount _)) fun _ =>
      .chain (.modify fun _ _ => rfl) fun _ => .pure _
  have hsteps := hmoves s trivial
  rw [h] at hsteps
  exact run_rel (R := fun s s' => s'.ctx = s.ctx) (fun _ => rfl)
    (fun _ _ _ hab hbc => hbc.trans hab) hsteps

variable {u : Unit}

/-- A receipt is entered for the trace of the action at hand, and of the
    context nothing else changes. -/
theorem recordReceipt_ok (h : recordReceipt env a s = .ok u s') :
    ∃ e : Executed, e.receipt.receiver = a.receiver ∧
      s.ctx.actionTraces[a.actionOrdinal - 1]? = some e.trace ∧
      s'.ctx = { s.ctx with executed := s.ctx.executed ++ [e] } := by
  rw [recordReceipt, modifyDb_bind] at h
  obtain ⟨m, s1, hm, h1⟩ := bind_ok_inv h
  rw [getAccount_ok hm, modifyDb_bind] at h1
  obtain ⟨first, s2, hfirst, h2⟩ := bind_ok_inv h1
  rw [getAccount_ok hfirst, get_bind] at h2
  obtain ⟨seqs, s3, hseqs, h3⟩ := bind_ok_inv h2
  have hkept := nextAuthSequences_ctx hseqs
  have hctx : s3.ctx = s.ctx := hkept
  obtain ⟨t, s4, ht, h4⟩ := bind_ok_inv h3
  obtain ⟨rfl, hget, _⟩ := getActionTrace_ok ht
  cases h4
  rw [hctx] at hget
  refine ⟨?e, ?receiver, ?trace, ?rest⟩
  case rest => rw [← hctx]
  case receiver => rfl
  case trace => exact hget

theorem execNotified_none {i : Nat} (h : a.notified[i]? = none) (n : Nat) (s : ExecState σ) :
    execNotified env node n i a s = .ok a s := by
  cases n with
  | zero => rfl
  | succ n =>
    rw [execNotified, h]
    rfl

end Executed

end ExecSteps
