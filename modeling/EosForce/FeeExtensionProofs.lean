import EosForce.AtomicPushProofs

/-! # Fee extensions of input transactions

    `push_transaction` reads a `fee_limit` from the extensions of a
    transaction, and `mk_fee_action` a producer whose vote age pays.  An input
    transaction never gets that far with an extension:  `init_for_input_trx`
    refuses every one of them before it looks at anything else.

    To say that nothing else stands in the way, the push is run a second time
    with that one check left out. -/

namespace FeeExtension

open ChainTypes TrxTypes Effect TrxContext ApplyContext Push StepRule
open TrxPhase AtomicPush

variable {σ : Type} {env : Env σ} {node : Node} {m : TrxMetadata} {b : Billing}

/-! ## The push without the check on extensions -/

def setExtensions (l : List (Nat × Bytes)) (s : ExecState σ) : ExecState σ :=
  { s with ctx := { s.ctx with trx := { s.ctx.trx with transactionExtensions := l } } }

/-- `init_for_input_trx` as it would run without its check on extensions,
    which is the only thing in it that reads them. -/
def initAllowing (env : Env σ) (node : Node) (m : TrxMetadata) : ExecM σ Unit := do
  let given := (← get).ctx.trx.transactionExtensions
  modify (setExtensions [])
  initForInputTrx env node m.unprunableSize m.prunableSize (skipRecording node m.trx)
  modify (setExtensions given)

/-- `prepareTrx` for an input transaction, with `initAllowing` in it. -/
def prepareAllowing (env : Env σ) (node : Node) (m : TrxMetadata) : ExecM σ Unit := do
  initAllowing env node m
  modifyCtx fun c => { c with delay := m.trx.delaySec * 1000000 }
  whenever (node.skipAuthCheck = false)
    (checkAuthorization env m.trx.actions m.recoveredKeys [] (m.trx.delaySec * 1000000 : Nat) [])
  settleFee env

/-- `runTrx` for an input transaction where `onfee_action` is open, with
    `initAllowing` in it. -/
def runAllowing (env : Env σ) (node : Node) (m : TrxMetadata) : ExecM σ Unit := do
  prepareAllowing env node m
  execTrx env node

/-- The transaction passes every other check of `push_transaction`. -/
structure PassesOtherChecks (env : Env σ) (node : Node) (m : TrxMetadata) (b : Billing)
    (s : PipeState σ) : Prop where
  deadline : b.deadline ≠ 0
  actions : checkAction s.db.tables m.trx.actions = .ok ()
  runs : ∃ e, runAllowing env node m ⟨s.db, startContext node m b⟩ = .ok () e

theorem setExtensions_self {l : List (Nat × Bytes)} {s : ExecState σ}
    (h : s.ctx.trx.transactionExtensions = l) : setExtensions l s = s := by
  subst h
  rfl

/-- Where there are no extensions the check makes no difference. -/
theorem initAllowing_plain {s s' : ExecState σ} {u : Unit} (hinput : m.implicit = false)
    (hext : s.ctx.trx.transactionExtensions = []) (h : initAllowing env node m s = .ok u s') :
    initTrx env node m s = .ok u s' := by
  rw [initAllowing, get_bind, hext, modify_bind, setExtensions_self hext] at h
  obtain ⟨_, s1, hinit, h1⟩ := bind_ok_inv h
  have htrx := ((sets_initForInputTrx env node _ _ _).aside_ok hinit).trx
  have hself : setExtensions [] s1 = s1 := setExtensions_self (by rw [htrx, hext])
  obtain rfl : s' = s1 := by
    cases h1
    exact hself
  rw [initTrx, hinput]
  exact hinit

theorem prepareAllowing_plain {s s' : ExecState σ} {u : Unit} (hinput : m.implicit = false)
    (hext : s.ctx.trx.transactionExtensions = []) (h : prepareAllowing env node m s = .ok u s') :
    prepareTrx env node m s = .ok u s' := by
  rw [prepareAllowing] at h
  obtain ⟨_, s1, hinit, h1⟩ := bind_ok_inv h
  rw [modifyCtx, modify_bind] at h1
  obtain ⟨_, s2, hauth, hfee⟩ := bind_ok_inv h1
  rw [prepareTrx, bind_ok (initAllowing_plain hinput hext hinit), modifyCtx, modify_bind]
  rw [whenever_congr (and_iff_left hinput), bind_ok hauth, whenever, if_pos hinput]
  exact hfee

theorem runAllowing_plain {s s' : ExecState σ} {u : Unit} (hinput : m.implicit = false)
    (hext : s.ctx.trx.transactionExtensions = []) (h : runAllowing env node m s = .ok u s') :
    runTrx env node m s = .ok none s' := by
  rw [runAllowing] at h
  obtain ⟨_, s1, hprep, hexec⟩ := bind_ok_inv h
  rw [runTrx, bind_ok (prepareAllowing_plain hinput hext hprep), get_bind,
    bind_ok (attempt_ok hexec)]
  rfl

/-! ## Extensions are refused -/

/-- The first thing that happens to an input transaction with extensions. -/
theorem initForInputTrx_refuses {unprunableSize prunableSize : Nat} {skip : Bool}
    {s : ExecState σ} (hext : s.ctx.trx.transactionExtensions ≠ []) :
    ∃ err, initForInputTrx env node unprunableSize prunableSize skip s = .error err s := by
  rw [initForInputTrx, get_bind, whenever, if_pos hext]
  exact ⟨_, rfl⟩

theorem runTrx_refuses {s : ExecState σ} (hinput : m.implicit = false)
    (hext : s.ctx.trx.transactionExtensions ≠ []) : ∃ err, runTrx env node m s = .error err s := by
  obtain ⟨err, herr⟩ := @initForInputTrx_refuses σ env node m.unprunableSize m.prunableSize
    (skipRecording node m.trx) s hext
  have hprep : prepareTrx env node m s = .error err s := by
    rw [prepareTrx, initTrx, hinput]
    exact bind_error herr
  exact ⟨err, bind_error hprep⟩

/-- The body of the push leaves everything as it was, whether the node opens
    sessions or not. -/
theorem pushBody_refuses {s : PipeState σ} (hinput : m.implicit = false)
    (hext : m.trx.transactionExtensions ≠ []) :
    final (pushBody env node m b s) = s ∧ Failed (pushBody env node m b s) := by
  obtain ⟨err, herr⟩ := @runTrx_refuses σ env node m ⟨s.db, startContext node m b⟩ hinput hext
  rw [pushBody, get_bind, herr]
  have hdb : undone node s.db s.db = s.db := ite_self _
  dsimp only
  rw [hdb]
  split
  · exact ⟨rfl, trivial⟩
  · exact ⟨rfl, Option.some_ne_none err⟩

theorem push_refuses {s : PipeState σ} (feeClock : Clock) (hinput : m.implicit = false)
    (hopen : onfeeOpen env s.db.tables) (hext : m.trx.transactionExtensions ≠ []) :
    final (pushTransaction env node m b feeClock s) = s ∧
      Failed (pushTransaction env node m b feeClock s) := by
  rw [pushTransaction_input hinput]
  by_cases hdeadline : b.deadline = 0
  · exact pushWith_refused (.inl hdeadline)
  cases hcheck : checkAction s.db.tables m.trx.actions with
  | error e => exact pushWith_refused (.inr ⟨e, hcheck⟩)
  | ok u =>
    rw [pushWith_ok hdeadline hcheck (payFee_open hopen)]
    exact pushBody_refuses hinput hext

/-- Without extensions the other checks decide. -/
theorem push_plain {s : PipeState σ} (feeClock : Clock) (hinput : m.implicit = false)
    (hopen : onfeeOpen env s.db.tables) (hext : m.trx.transactionExtensions = [])
    (hpass : PassesOtherChecks env node m b s) :
    ¬ Failed (pushTransaction env node m b feeClock s) := by
  obtain ⟨e, he⟩ := hpass.runs
  have hrun := runAllowing_plain hinput hext he
  rw [pushTransaction_input hinput,
    pushWith_ok hpass.deadline hpass.actions (payFee_open hopen), pushBody, get_bind, hrun]
  dsimp only
  intro hfail
  split at hfail
  · exact hfail rfl
  · rw [whenever, if_pos hinput] at hfail
    exact hfail rfl

/-- **EXTENSIONS OF INPUT TRANSACTIONS ARE REFUSED**: where `onfee_action` is
    open, a transaction that passes every other check is executed exactly when
    it carries no extension; one that carries any is refused, and nothing is
    charged. -/
theorem extensions_refused (env : Env σ) (node : Node) (m : TrxMetadata) (b : Billing)
    (feeClock : Clock) (s : PipeState σ) (hinput : m.implicit = false)
    (hopen : onfeeOpen env s.db.tables) :
    (PassesOtherChecks env node m b s →
      (¬ Failed (pushTransaction env node m b feeClock s) ↔ m.trx.transactionExtensions = [])) ∧
    (m.trx.transactionExtensions ≠ [] →
      Failed (pushTransaction env node m b feeClock s) ∧
        final (pushTransaction env node m b feeClock s) = s) := by
  refine ⟨fun hpass => ⟨?_, ?_⟩, fun hext => ?_⟩
  · intro hran
    by_contra hext
    exact hran (push_refuses feeClock hinput hopen hext).2
  · exact fun hext => push_plain feeClock hinput hopen hext hpass
  · exact (push_refuses feeClock hinput hopen hext).symm

/-! ## A transaction with a limit -/

/-- A chain on which an asset is packed as its amount. -/
def limitEnv : Env Unit :=
  { SmallChain.env 10 SmallChain.noCode with
    unpackAsset := fun l => .ok ⟨asInt64 (SmallChain.ofBytes l), coreSymbol⟩ }

/-- A transfer whose fee is limited to 1000. -/
def limited : TrxMetadata :=
  { SmallChain.transfer with
    trx :=
      { SmallChain.transfer.trx with
        transactionExtensions := [(feeLimitExtension, SmallChain.toBytes 1000)] } }

def limitedStart : PipeState Unit := ⟨SmallChain.db (some 5) 0 false, {}⟩

def allowedRun : EStateM.Result FcException (ExecState Unit) Unit :=
  runAllowing limitEnv SmallChain.producer limited
    ⟨limitedStart.db, startContext SmallChain.producer limited {}⟩

theorem limited_passes : PassesOtherChecks limitEnv SmallChain.producer limited
    {} limitedStart where
  deadline := by decide
  actions := by decide
  runs := ⟨final allowedRun, of_yields (by decide +kernel)⟩

/-- The fee that is due stays below the limit that was signed, and nothing
    else is wrong with the transaction; a producing node refuses it and a
    validating node rejects the block. -/
theorem limited_transfer_refused :
    PassesOtherChecks limitEnv SmallChain.producer limited {} limitedStart ∧
      onfeeOpen limitEnv limitedStart.db.tables ∧
      (final allowedRun).ctx.feeCosted = ⟨100, coreSymbol⟩ ∧
      (final allowedRun).ctx.maxFeeToPay = ⟨1000, coreSymbol⟩ ∧
      Failed (pushTransaction limitEnv SmallChain.producer limited {} {} limitedStart) ∧
      Failed (pushTransaction limitEnv { blockStatus := .validated } limited {} {} limitedStart) :=
  ⟨limited_passes, by decide, by decide +kernel, by decide +kernel, by decide +kernel,
    by decide +kernel⟩

theorem extensions_refused_limited :
    (PassesOtherChecks limitEnv SmallChain.producer limited {} limitedStart →
      (¬ Failed (pushTransaction limitEnv SmallChain.producer limited {} {} limitedStart) ↔
        limited.trx.transactionExtensions = [])) ∧
    (limited.trx.transactionExtensions ≠ [] →
      Failed (pushTransaction limitEnv SmallChain.producer limited {} {} limitedStart) ∧
        final (pushTransaction limitEnv SmallChain.producer limited {} {} limitedStart) =
          limitedStart) :=
  extensions_refused limitEnv SmallChain.producer limited {} {} limitedStart rfl (by decide)

end FeeExtension
