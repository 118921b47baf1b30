import EosForce.FeePairProofs

/-! # Where fee actions come from, and what goes without one

    Fee actions are made in one place, and made only where a context has a fee
    payer.  Two of the three functions that build a context set one, and one
    of these only where `onfee_action` is open.  Everything that a context
    without a payer executes goes uncharged, and what keeps foreign fee
    actions out is that no fee for them is known. -/

namespace FeeOrigins

open ChainTypes TrxTypes Database FeeRule TrxContext Push StepRule
open QuietStep ExecSteps FeePair TrxJob

variable {σ : Type} {env : Env σ} {node : Node} {db : Db σ} {job : Job}

/-! ## Inline actions and their fees -/

/-- Contract code sent the action. -/
def SentInline (t : ActionTrace) : Prop :=
  t.origin = .inlined ∨ t.origin = .contextFreeInline

/-- `x` comes right after a fee action for it. -/
def ChargedAfter (env : Env σ) (before : List Executed) (x : Executed) : Prop :=
  ∃ l₀ f payer fee, before = l₀ ++ [f] ∧ FeeFor env payer fee f.trace x.trace

theorem paired_inlineCharged {payer : Name} {l : List Executed} {n : Int}
    (h : Paired env payer l n) {l₁ l₂ : List Executed} {x : Executed} (hl : l = l₁ ++ x :: l₂)
    (hsent : SentInline x.trace) : ChargedAfter env l₁ x := by
  induction h generalizing l₁ with
  | nil => exact absurd hl.symm (List.append_ne_nil_of_right_ne_nil _ (List.cons_ne_nil _ _))
  | @pair f t fee l n hfor _ ih =>
    cases l₁ with
    | nil =>
      -- a fee action is not sent by a contract
      obtain rfl : f = x := (List.cons.inj hl).1
      rw [SentInline, hfor.origin] at hsent
      obtain h | h := hsent
      · cases h
      · cases h
    | cons a l₁ =>
      obtain ⟨rfl, hrest⟩ := List.cons.inj hl
      cases l₁ with
      | nil =>
        obtain rfl : t = x := (List.cons.inj hrest).1
        exact ⟨[], f, payer, fee, rfl, hfor⟩
      | cons b more =>
        obtain ⟨rfl, htail⟩ := List.cons.inj hrest
        obtain ⟨l0, f', payer', fee', rfl, h⟩ := ih htail
        exact ⟨f :: t :: l0, f', payer', fee', rfl, h⟩
  | @notified e l n hnote _ ih =>
    cases l₁ with
    | nil =>
      obtain rfl : e = x := (List.cons.inj hl).1
      rw [SentInline, hnote] at hsent
      obtain h | h := hsent
      · cases h
      · cases h
    | cons a more =>
      obtain ⟨rfl, hrest⟩ := List.cons.inj hl
      obtain ⟨l0, f', payer', fee', rfl, h⟩ := ih hrest
      exact ⟨e :: l0, f', payer', fee', rfl, h⟩

/-- No fee action. -/
def NotFee (t : ActionTrace) : Prop := ∀ fee, t.origin ≠ .feeAction fee

theorem stable_noPayer : Stable (Step env) fun s => s.ctx.feePayer = noName := by
  intro s s' hstep hs
  have hpayer := congrArg Context.feePayer hstep.grows.fixed
  exact Eq.trans hpayer hs

/-- Without a payer nothing that is executed is a fee action. -/
theorem notFee_of_uncharged (hfree : ¬ job.charged env db) :
    ∀ x ∈ (final (job.run env node db)).ctx.executed, NotFee x.trace := by
  refine executed_of_stable (stable_allTraces stable_noPayer ?_ ?_) fun s hs => ⟨?_, ?_⟩
  · intro s t _ _ hsched fee horigin
    cases hsched with
    | notification h | inlined h | contextFreeInline h => rw [horigin] at h; cases h
    | original h _ _ =>
      rw [horigin] at h
      obtain ⟨h, _⟩ | ⟨h, _⟩ := h
      · cases h
      · cases h
  · intro s act feeAct fee c hs hcharged
    exact absurd hs hcharged.need
  · exact not_not.mp (mt hs.fees.mp hfree)
  · intro t ht fee horigin
    rw [(hs.traces t ht).2.1] at horigin
    cases horigin

/-- **INLINE ACTIONS ARE CHARGED, EXCEPT BY `onerror`**: where `onfee_action`
    is open, an inline action that a transaction of a user executes has its fee
    action right before it exactly where that is no `onerror` transaction. -/
theorem inline_charged_iff (env : Env σ) (node : Node) (db : Db σ) (job : Job) (e : ExecState σ)
    (huser : job.ofUser) (hopen : onfeeOpen env db.tables)
    (h : job.run env node db = .ok none e) (l₁ l₂ : List Executed) (x : Executed)
    (hx : e.ctx.executed = l₁ ++ x :: l₂) (hsent : SentInline x.trace) :
    ChargedAfter env l₁ x ↔ job.kind ≠ .onerror := by
  cases job with
  | input m b =>
    obtain ⟨payer, _, hpaired⟩ := chargedRun_paired (.input huser hopen h)
    exact iff_of_true (paired_inlineCharged hpaired hx hsent) nofun
  | scheduled g b =>
    obtain ⟨_, hrun⟩ := seq_pure_ok h
    obtain ⟨payer, _, hpaired⟩ := chargedRun_paired (.scheduled hopen hrun)
    exact iff_of_true (paired_inlineCharged hpaired hx hsent) nofun
  | onerror g b enforce =>
    have hnone : ∀ x ∈ (final (Job.run env node db (.onerror g b enforce))).ctx.executed,
        NotFee x.trace := notFee_of_uncharged id
    rw [h] at hnone
    refine iff_of_false ?_ (not_not.mpr rfl)
    rintro ⟨l0, f, payer, fee, rfl, hfor⟩
    have hf : f ∈ e.ctx.executed := by
      rw [hx]
      exact List.mem_append_left _ (List.mem_append_right _ (List.mem_singleton_self f))
    exact hnone f hf fee hfor.origin

/-- A deferred transaction of `alice` that has failed. -/
def failedDeferred : GeneratedTransaction where
  trxId := 300
  sender := SmallChain.alice
  senderId := 1
  payer := SmallChain.alice
  delayUntil := 0
  expiration := 1000000000
  published := 0
  trx := { actions := [SmallChain.pay] }

/-- `alice` sends a transfer from the handler of a failed transaction. -/
def retrying : Digest → Program Unit := fun _ _ _ => [.executeInline SmallChain.pay]

def onerrorRun : EStateM.Result FcException (ExecState Unit) (Option FcException) :=
  Job.run (SmallChain.env 5000000 retrying) SmallChain.producer (SmallChain.db (some 5) 1 false)
    (.onerror failedDeferred {} false)

/-- The handler of a failed deferred transaction sends a transfer, which is
    executed with no fee action before it. -/
theorem onerror_inline_uncharged :
    onfeeOpen (SmallChain.env 5000000 retrying) (SmallChain.db (some 5) 1 false).tables ∧
      yields none onerrorRun = true ∧
      (final onerrorRun).ctx.executed.map (fun x => (x.trace.act.name, x.trace.origin)) =
        [(N.onerror, .implicit), (FeeRule.N.transfer, .inlined)] ∧
      (final onerrorRun).ctx.executed.map (fun x => x.trace.required) =
        [getRequiredFee (SmallChain.db (some 5) 1 false).tables N.eosio N.onerror,
          .ok ⟨100, coreSymbol⟩] := by
  decide +kernel

theorem inline_charged_iff_retry :
    ∃ l₁ x l₂, (final onerrorRun).ctx.executed = l₁ ++ x :: l₂ ∧ SentInline x.trace ∧
      ¬ ChargedAfter (SmallChain.env 5000000 retrying) l₁ x := by
  have hmap : (final onerrorRun).ctx.executed.map (fun x => x.trace.origin) =
      [.implicit, .inlined] := by
    decide +kernel
  obtain ⟨f, rest, hexecuted, _, hrest⟩ := List.map_eq_cons_iff.mp hmap
  obtain ⟨x, hx, horigin⟩ := List.map_eq_singleton_iff.mp hrest
  have hall : (final onerrorRun).ctx.executed = [f] ++ x :: [] := by rw [hexecuted, hx]; rfl
  have hiff := inline_charged_iff (SmallChain.env 5000000 retrying) SmallChain.producer
    (SmallChain.db (some 5) 1 false) (.onerror failedDeferred {} false) (final onerrorRun) trivial
    (by decide) (of_yields (by decide +kernel)) [f] [] x hall (.inl horigin)
  exact ⟨[f], x, [], hall, .inl horigin, fun hcharged => hiff.mp hcharged rfl⟩

/-! ## Foreign fee actions -/

/-- No `setfee` row for the fee actions. -/
def NoFeeRow (t : Tables σ) : Prop :=
  t.actionFees N.eosio N.onfee = none ∧ t.actionFees N.eosio N.voteagefee = none

/-- No contract writes such a row. -/
def KeepsNoFeeRow (env : Env σ) : Prop :=
  ∀ act f, Sent env act (.write f) → ∀ t, NoFeeRow t → NoFeeRow (f t)

/-- The action is none of the fee actions, or comes from the fee machinery;
    notifications are of actions that run already. -/
def FromMachinery (t : ActionTrace) : Prop :=
  t.act.isFee → (∃ fee, t.origin = .feeAction fee) ∨ t.origin = .notification

/-- What keeps foreign fee actions out: no fee for them is known. -/
theorem getRequiredFee_isFee {t : Tables σ} {act : Action} (h : act.isFee) (hrow : NoFeeRow t)
    (fee : Asset) : getRequiredFee t act.account act.name ≠ .ok fee := by
  obtain ⟨hacc, hname⟩ := h
  have hnone : getNativeFee N.eosio act.name = Asset.zero ∧
      t.actionFees N.eosio act.name = none := by
    obtain hname | hname := hname
    · rw [hname]
      exact ⟨by decide, hrow.1⟩
    · rw [hname]
      exact ⟨by decide, hrow.2⟩
  intro hok
  rw [hacc, getRequiredFee, if_neg (fun h => h.2 hnone.1), hnone.2] at hok
  dsimp only at hok
  rw [getRequiredFee.nativeOrThrow, hnone.1, if_neg (not_not.mpr rfl)] at hok
  cases hok

theorem Quiet.actionFees {asked : Name → Int → Prop} {s s' : ExecState σ}
    (h : Quiet env asked s s') : s'.db.tables.actionFees = s.db.tables.actionFees := by
  cases h with
  | tick | ram | limits | enter | drop => rfl
  | keep db h _ _ => exact h.actionFees

/-- Fees stay due, and no fee for a fee action gets known. -/
theorem stable_due (hkeeps : KeepsNoFeeRow env) :
    Stable (Step env) fun s => s.ctx.isNeedFeeAction ∧ NoFeeRow s.db.tables := by
  rintro s s' hstep ⟨hneed, hrow⟩
  have hpayer := congrArg Context.feePayer hstep.grows.fixed
  constructor
  · rw [Context.isNeedFeeAction, show s'.ctx.feePayer = s.ctx.feePayer from hpayer]
    exact hneed
  · cases hstep with
    | quiet h =>
      rw [NoFeeRow, Quiet.actionFees h]
      exact hrow
    | write act f _ hsent => exact hkeeps act f hsent _ hrow
    | schedule | charge | refuse | execute => exact hrow

/-- Where fees are due, fee actions come from the fee machinery. -/
theorem fromMachinery_of_charged (hdue : job.charged env db) (hrow : NoFeeRow db.tables)
    (hkeeps : KeepsNoFeeRow env) :
    ∀ x ∈ (final (job.run env node db)).ctx.executed, FromMachinery x.trace := by
  have hknown : ∀ (s : ExecState σ) (act : Action), s.ctx.isNeedFeeAction ∧ NoFeeRow s.db.tables →
      FeeKnown s act → ¬ act.isFee := by
    rintro s act ⟨hneed, hrow⟩ hfee hact
    obtain ⟨fee, hok⟩ := hfee hneed
    exact getRequiredFee_isFee hact hrow fee hok
  refine executed_of_stable (stable_allTraces (stable_due hkeeps) ?_ ?_) fun s hs => ⟨⟨?_, ?_⟩, ?_⟩
  · intro s t hs _ hsched hact
    cases hsched with
    | notification h _ => exact .inr h
    | inlined _ _ _ _ _ hfee | contextFreeInline _ _ _ _ hfee | original _ _ hfee =>
      exact absurd hact (hknown s t.act hs hfee)
  · intro s act feeAct fee c _ _ _
    exact .inl ⟨fee, rfl⟩
  · exact hs.fees.mpr hdue
  · have hfees := congrArg Tables.actionFees hs.tables
    rw [NoFeeRow, show s.db.tables.actionFees = db.tables.actionFees from hfees]
    exact hrow
  · -- an `onerror` transaction is never charged
    intro t ht
    have hkind := (hs.traces t ht).1
    cases job with
    | input m b => cases hkind
    | scheduled g b => cases hkind
    | onerror g b enforce => exact absurd hdue id

/-- So none that the transaction names itself or a contract sends is
    executed. -/
theorem not_isFee_of_charged (hdue : job.charged env db) (hrow : NoFeeRow db.tables)
    (hkeeps : KeepsNoFeeRow env) :
    ∀ x ∈ (final (job.run env node db)).ctx.executed, x.trace.origin ∈ charged →
      ¬ x.trace.act.isFee := by
  intro x hx horigin hfee
  obtain ⟨fee, hmade⟩ | hmade := fromMachinery_of_charged hdue hrow hkeeps x hx hfee
  · rw [hmade] at horigin
    simp [charged] at horigin
  · rw [hmade] at horigin
    simp [charged] at horigin

/-! ## A forged fee action -/

/-- A fee action over a negative fee, so that it credits its actor. -/
def forged : Action :=
  ⟨N.eosio, N.onfee, [], SmallChain.packFee ⟨SmallChain.alice, ⟨-1000, coreSymbol⟩, noName⟩⟩

/-- Contract code that sends it as a context-free inline action. -/
def forging : Digest → Program Unit := fun _ _ _ => [.executeContextFreeInline forged]

theorem keepsNoFeeRow_forging (n : Nat) : KeepsNoFeeRow (SmallChain.env n forging) := by
  rintro act f ⟨p, db, inv, hruns, _, hcall⟩
  cases hruns with
  | native h => cases h
  | wasm codeHash _ =>
    have hlist := List.mem_singleton.mp hcall
    cases hlist

/-- A transaction with the fee action among its context-free actions. -/
def forgedInput : TrxMetadata :=
  { SmallChain.transfer with
    trx :=
      { SmallChain.transfer.trx with contextFreeActions := [forged], fee := ⟨100, coreSymbol⟩ } }

def forgeryRun (onfee : Option Int) (job : Job) :
    EStateM.Result FcException (ExecState Unit) (Option FcException) :=
  job.run (SmallChain.env 5000000 forging) SmallChain.producer (SmallChain.db onfee 1 false)

end FeeOrigins
